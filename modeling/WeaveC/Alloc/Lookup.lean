import WeaveC.Alloc.Blocks
import WeaveC.Alloc.Colors

/-!
# What the allocator says of an address

`free`, `realloc`, the size queries and the reports look an address up.  Every
address is at one site: the start of a live block, elsewhere in one's slot or
mapping, in a released block, in a slot that no block has, or not in the
allocator's memory; and every lookup says which.
-/

namespace WeaveC.Alloc

open WeaveC.Runtime WeaveC.Library

variable {T : Type} {A : Arena} {place : Slot → Place T} {s : State T} {x : Slot} {b : HugeBlock}
  {p : Nat}

/-! ## The lookups -/

namespace Heap

variable (A : Arena) (h : Heap)

/-- `whyNotReleasable`. -/
def whyNotReleasable (address : Nat) : String :=
  match (h.table.word (h.table.slotOf A address)).state with
  | .dead => "the block was already released"
  | .live => "not the start of its block"
  | _ => "no block is allocated there"

/-- What `release` reports when it finds no live block at `p`. -/
def refusal (p : Nat) : Option String :=
  if A.inArena p then
    let x := h.table.slotOf A p
    if h.table.slotBase A x ≠ p ∨ (h.table.word x).state ≠ .live then
      some (h.whyNotReleasable A p)
    else none
  else
    match h.hugeFree p with
    | some _ => none
    | none =>
        (h.huge.find p).map fun block =>
          if block.dead ≠ 0 then "the block was already released"
          else "not the start of its block"

/-- `ownedSize`. -/
def ownedSize (p : Nat) : Option Nat :=
  if A.inArena p then
    let x := h.table.slotOf A p
    let word := h.table.word x
    if h.table.slotBase A x ≠ p ∨ word.state ≠ .live then none else some word.value
  else
    match h.huge.find p with
    | some block => if block.base = p ∧ block.dead = 0 then some block.size else none
    | none => none

/-- `__weavec_rt_size`; `nextSize` is the next allocator's. -/
def size (nextSize : Nat → Nat) (p : Nat) : Nat :=
  if p = 0 then 0
  else
    match h.ownedSize A p with
    | some size => size
    | none => if A.inArena p = true ∨ (h.huge.find p).isSome then 0 else nextSize p

end Heap

/-! ## Sites -/

/-- Where an address is. -/
inductive Site where
  | start (size : Nat)
  | inside
  | released
  | unallocated
  | foreign

namespace Site

/-- What a release of the address reports. -/
def refusal : Site → Option String
  | start _ | foreign => none
  | inside => some "not the start of its block"
  | released => some "the block was already released"
  | unallocated => some "no block is allocated there"

def ownedSize : Site → Option Nat
  | start size => some size
  | _ => none

def size (next : Nat) : Site → Nat
  | start size => size
  | foreign => next
  | _ => 0

def isLive : Site → Bool
  | start _ | inside => true
  | _ => false

/-- Whether the allocator knows an object there; of memory no block has it may. -/
def isObject : Site → Bool
  | foreign => false
  | _ => true

/-- Where an address is that is not the start of its slot's live block. -/
def ofWord : WordState → Site
  | .dead => released
  | .live => inside
  | _ => unallocated

end Site

namespace State

variable (A : Arena) (s : State T)

/-- A live block of `n` bytes starts at `p`. -/
def LiveAt (p n : Nat) : Prop :=
  (∃ x, s.heap.table.word x = ⟨n, .live⟩ ∧ s.heap.table.slotBase A x = p) ∨
    ∃ b ∈ s.heap.huge.blocks, b.dead = 0 ∧ b.base = p ∧ b.size = n

/-- The address is in the slot, and memory says that the slot is one that `q`
names. -/
def InSlotAt (p : Nat) (q : Place T → Prop) : Prop :=
  A.inArena p = true ∧ ∃ place, q place ∧ s.At (s.heap.table.slotOf A p) place

/-- The address is in the mapping of such a huge block. -/
def InHuge (p : Nat) (q : HugeBlock → Prop) : Prop :=
  ∃ b ∈ s.heap.huge.blocks, b.Maps p ∧ q b

/-- What it is for an address to be at a site. -/
def IsAt (p : Nat) : Site → Prop
  | .start n => s.LiveAt A p n
  | .inside => (∀ n, ¬ s.LiveAt A p n) ∧
      (s.InSlotAt A p (· = .live) ∨ s.InHuge p fun b => b.dead = 0)
  | .released => s.InSlotAt A p Place.Claimed ∨ s.InSlotAt A p (· = .queued) ∨
      s.InHuge p fun b => b.dead ≠ 0
  | .unallocated => s.InSlotAt A p (· = .fresh) ∨ s.InSlotAt A p (· = .free) ∨
      s.InSlotAt A p Place.Handed
  | .foreign => A.inArena p = false ∧ ¬ s.InHuge p fun _ => True

end State

/-! ## Huge blocks -/

/-- `hugeFind` finds listed blocks only. -/
theorem Huge.Ordered.mem_of_find {g : Huge} (ordered : g.Ordered A) (found : g.find p = some b) :
    b ∈ g.blocks ∧ b.Maps p := by
  unfold Huge.find Huge.blockAt at found
  split_ifs at found
  cases count : Huge.countTo g.blocks p with
  | zero =>
      rw [count] at found
      cases found
  | succ i =>
      rw [count] at found
      dsimp only at found
      cases listed : g.blocks[i]? with
      | none =>
          rw [listed] at found
          cases found
      | some c =>
          rw [listed] at found
          dsimp only at found
          split_ifs at found with inside
          obtain rfl := Option.some.inj found
          exact ⟨List.mem_of_getElem? listed, ordered.maps_of_countTo listed count inside⟩

/-- `hugeFree` finds no block but by its start. -/
theorem Huge.Ordered.hugeFree_eq_none {h : Heap} (ordered : h.huge.Ordered A)
    (mem : b ∈ h.huge.blocks) (maps : b.Maps p) (other : ¬ (b.base = p ∧ b.dead = 0)) :
    h.hugeFree p = none := by
  unfold Heap.hugeFree
  rw [if_pos (ordered.maybeHuge mem maps), ordered.blockAt_eq mem maps]
  exact if_neg other

/-! ## Every lookup -/

/-- What the lookups find of an address at a site. -/
structure Heap.Finds (A : Arena) (h : Heap) (p : Nat) (site : Site) : Prop where
  refusal : h.refusal A p = site.refusal
  ownedSize : h.ownedSize A p = site.ownedSize
  size : ∀ nextSize, p ≠ 0 → h.size A nextSize p = site.size (nextSize p)
  live : (h.heapObjectAt A p).live = site.isLive
  object : site ≠ .unallocated → (h.heapObjectAt A p).found = site.isObject

namespace Heap.Finds

variable {h : Heap} {site site' : Site}

/-- The lookups tell the sites apart. -/
theorem unique (finds : h.Finds A p site) (finds' : h.Finds A p site') : site = site' := by
  have refusal := finds.refusal.symm.trans finds'.refusal
  have size := finds.ownedSize.symm.trans finds'.ownedSize
  cases site <;> cases site' <;>
    simp_all [Site.refusal, Site.ownedSize]

/-- What is in a slot. -/
theorem of_slot (inside : A.inArena p = true)
    (start : h.table.slotBase A (h.table.slotOf A p) = p ∧
        (h.table.word (h.table.slotOf A p)).state = .live →
      site = .start (h.table.word (h.table.slotOf A p)).value)
    (rest : ¬ (h.table.slotBase A (h.table.slotOf A p) = p ∧
        (h.table.word (h.table.slotOf A p)).state = .live) →
      site = .ofWord (h.table.word (h.table.slotOf A p)).state) : h.Finds A p site := by
  by_cases both : h.table.slotBase A (h.table.slotOf A p) = p ∧
      (h.table.word (h.table.slotOf A p)).state = .live
  · obtain rfl := start both
    obtain ⟨base, live⟩ := both
    have found : h.ownedSize A p = some (h.table.word (h.table.slotOf A p)).value := by
      unfold Heap.ownedSize
      simp [inside, base, live]
    refine ⟨?_, found, fun next some => ?_, ?_, fun _ => ?_⟩
    · unfold Heap.refusal
      simp [inside, base, live, Site.refusal]
    · unfold Heap.size
      rw [if_neg some, found]
      rfl
    · unfold Heap.heapObjectAt
      simp [inside, live, Site.isLive]
    · unfold Heap.heapObjectAt
      simp [inside, live, Site.isObject]
  · have eq := rest both
    have apart : h.table.slotBase A (h.table.slotOf A p) ≠ p ∨
        (h.table.word (h.table.slotOf A p)).state ≠ .live := by
      by_contra neither
      obtain ⟨base, live⟩ := not_or.mp neither
      exact both ⟨not_not.mp base, not_not.mp live⟩
    have found : h.ownedSize A p = none := by
      unfold Heap.ownedSize
      rw [if_pos inside]
      exact if_pos apart
    have refused : h.refusal A p = some (h.whyNotReleasable A p) := by
      unfold Heap.refusal
      rw [if_pos inside]
      exact if_pos apart
    have none (next : Nat → Nat) (some : p ≠ 0) : h.size A next p = 0 := by
      unfold Heap.size
      rw [if_neg some, found]
      exact if_pos (.inl inside)
    have live : (h.heapObjectAt A p).live =
        decide ((h.table.word (h.table.slotOf A p)).state = .live) := by
      unfold Heap.heapObjectAt
      rw [if_pos inside]
    have object : (h.heapObjectAt A p).found =
        decide ((h.table.word (h.table.slotOf A p)).state ≠ .never) := by
      unfold Heap.heapObjectAt
      rw [if_pos inside]
    unfold Heap.whyNotReleasable at refused
    subst eq
    cases state : (h.table.word (h.table.slotOf A p)).state <;>
      · rw [state] at refused live object
        refine ⟨refused, found, none, live, fun allocated => ?_⟩
        first
          | exact object
          | exact absurd rfl allocated

/-- What is in a huge block's mapping. -/
theorem of_huge (ordered : h.huge.Ordered A) (ok : HugeOk A h.huge.blocks)
    (mem : b ∈ h.huge.blocks) (maps : b.Maps p)
    (eq : site = if b.dead ≠ 0 then .released
      else if b.base = p then .start b.size else .inside) : h.Finds A p site := by
  have block := ok.block b mem
  have outside : ¬ A.inArena p = true := by
    rw [block.not_inArena maps.1 maps.2]
    exact Bool.false_ne_true
  have found := ordered.find_eq mem maps
  have object : h.heapObjectAt A p = ⟨true, b.dead = 0, b.base, b.size⟩ := by
    unfold Heap.heapObjectAt
    rw [if_neg outside, found]
  have owned : h.ownedSize A p = if b.base = p ∧ b.dead = 0 then some b.size else none := by
    unfold Heap.ownedSize
    rw [if_neg outside, found]
  have sized (next : Nat → Nat) (some : p ≠ 0) :
      h.size A next p = if b.base = p ∧ b.dead = 0 then b.size else 0 := by
    unfold Heap.size
    rw [if_neg some, owned]
    by_cases start : b.base = p ∧ b.dead = 0
    · rw [if_pos start, if_pos start]
    · have listed : A.inArena p = true ∨ (h.huge.find p).isSome := .inr (by rw [found]; rfl)
      rw [if_neg start, if_neg start]
      exact if_pos listed
  by_cases start : b.base = p ∧ b.dead = 0
  · obtain ⟨rfl, live⟩ := start
    obtain ⟨h', freed⟩ := Option.isSome_iff_exists.mp (ordered.hugeFree_isSome mem block live)
    rw [if_neg (not_not.mpr live), if_pos rfl] at eq
    subst eq
    refine ⟨?_, owned.trans (if_pos ⟨rfl, live⟩), fun next some =>
      (sized next some).trans (if_pos ⟨rfl, live⟩), ?_, fun _ => by rw [object]; rfl⟩
    · unfold Heap.refusal
      rw [if_neg outside, freed]
      rfl
    · rw [object]
      exact decide_eq_true live
  · have refused : h.refusal A p = some (if b.dead ≠ 0 then "the block was already released"
        else "not the start of its block") := by
      unfold Heap.refusal
      rw [if_neg outside, ordered.hugeFree_eq_none mem maps start, found]
      rfl
    rw [if_neg start] at owned
    by_cases dead : b.dead = 0
    · have other : b.base ≠ p := fun same => start ⟨same, dead⟩
      rw [if_neg (not_not.mpr dead), if_neg other] at eq
      rw [if_neg (not_not.mpr dead)] at refused
      subst eq
      refine ⟨refused, owned, fun next some => (sized next some).trans (if_neg start), ?_,
        fun _ => by rw [object]; rfl⟩
      rw [object]
      exact decide_eq_true dead
    · rw [if_pos dead] at eq refused
      subst eq
      refine ⟨refused, owned, fun next some => (sized next some).trans (if_neg start), ?_,
        fun _ => by rw [object]; rfl⟩
      rw [object]
      exact decide_eq_false dead

/-- What is no memory of the allocator's. -/
theorem of_foreign (ordered : h.huge.Ordered A) (ok : HugeOk A h.huge.blocks)
    (outside : A.inArena p = false) (none : ∀ b ∈ h.huge.blocks, ¬ b.Maps p) :
    h.Finds A p .foreign := by
  have arena : ¬ A.inArena p = true := by
    rw [outside]
    exact Bool.false_ne_true
  have missed : h.huge.find p = Option.none := by
    by_contra some
    obtain ⟨b, found⟩ := Option.ne_none_iff_exists'.mp some
    obtain ⟨mem, maps⟩ := ordered.mem_of_find found
    exact none b mem maps
  have kept : h.hugeFree p = Option.none := by
    by_contra some
    obtain ⟨h', freed⟩ := Option.ne_none_iff_exists'.mp some
    obtain ⟨i, b, listed, -, rfl, -⟩ := hugeFree_heap freed
    have mem := List.mem_of_getElem? listed
    exact none b mem (ok.block b mem).start_mapped
  have owned : h.ownedSize A p = Option.none := by
    unfold Heap.ownedSize
    rw [if_neg arena, missed]
  have object : h.heapObjectAt A p = ⟨false, false, 0, 0⟩ := by
    unfold Heap.heapObjectAt
    rw [if_neg arena, missed]
  refine ⟨?_, owned, fun next some => ?_, by rw [object]; rfl, fun _ => by rw [object]; rfl⟩
  · unfold Heap.refusal
    rw [if_neg arena, kept, missed]
    rfl
  · unfold Heap.size
    rw [if_neg some, owned, missed]
    exact if_neg fun either => either.elim arena Bool.false_ne_true

end Heap.Finds

/-! ## Every address -/

section Every

variable {site : Site}

/-- Where the address is, the lookups find it to be. -/
theorem Sound.finds (ok : Sound A s) (fits : s.Fits) (ordered : s.heap.huge.Ordered A)
    (here : s.IsAt A p site) : s.heap.Finds A p site := by
  obtain ⟨place, partition⟩ := ok.places
  have word := partition.table.word (s.heap.table.slotOf A p)
  -- a slot that is not live
  have idle {state : WordState} (inside : A.inArena p = true)
      (eq : (s.heap.table.word (s.heap.table.slotOf A p)).state = state) (other : state ≠ .live)
      (named : site = .ofWord state) : s.heap.Finds A p site := by
    refine .of_slot inside (fun both => absurd (eq.symm.trans both.2) other) fun _ => ?_
    rw [eq]
    exact named
  cases site with
  | start n =>
      rcases here with ⟨x, live, base⟩ | ⟨b, mem, live, rfl, rfl⟩
      · have state : (s.heap.table.word x).state = .live := by rw [live]
        have used := partition.used_of_live state
        have start : InRange (s.heap.table.slotBase A x) (s.heap.table.slotBytes x) p := by
          have small := fits x state
          rw [base]
          exact ⟨Nat.le_refl p, by omega⟩
        have found := partition.slotOf_eq used start.1 start.2
        refine .of_slot (partition.inArena_of_slot used start) (fun _ => ?_) fun none => ?_
        · rw [found, live]
        · rw [found] at none
          exact absurd ⟨base, state⟩ none
      · refine .of_huge ordered ok.blocks mem (ok.blocks.block b mem).start_mapped ?_
        rw [if_neg (not_not.mpr live), if_pos rfl]
  | inside =>
      obtain ⟨none, ⟨inside, q, rfl, at'⟩ | ⟨b, mem, maps, live⟩⟩ := here
      · rw [(partition.at_iff _ _).mp at'] at word
        have live : (s.heap.table.word (s.heap.table.slotOf A p)).state = .live := word
        refine .of_slot inside (fun both => ?_) fun _ => ?_
        · exact absurd (.inl ⟨_, congrArg (Word.mk _) live, both.1⟩) (none _)
        · rw [live]
          rfl
      · refine .of_huge ordered ok.blocks mem maps ?_
        have other : b.base ≠ p := fun same => none b.size (.inr ⟨b, mem, live, same, rfl⟩)
        rw [if_neg (not_not.mpr live), if_neg other]
  | released =>
      rcases here with ⟨inside, q, claimed, at'⟩ | ⟨inside, q, rfl, at'⟩ | ⟨b, mem, maps, dead⟩
      · rw [(partition.at_iff _ _).mp at', Place.WordOk.claimed claimed] at word
        exact idle inside (congrArg Word.state word) WordState.noConfusion rfl
      · rw [(partition.at_iff _ _).mp at'] at word
        exact idle inside word.1 WordState.noConfusion rfl
      · exact .of_huge ordered ok.blocks mem maps (if_pos dead).symm
  | unallocated =>
      rcases here with ⟨inside, q, rfl, at'⟩ | ⟨inside, q, rfl, at'⟩ | ⟨inside, q, handed, at'⟩
      · rw [(partition.at_iff _ _).mp at'] at word
        exact idle inside (congrArg Word.state word) WordState.noConfusion rfl
      · rw [(partition.at_iff _ _).mp at'] at word
        exact idle inside word WordState.noConfusion rfl
      · rw [(partition.at_iff _ _).mp at', Place.WordOk.handed handed] at word
        rcases word with free | never
        · exact idle inside free WordState.noConfusion rfl
        · exact idle inside never WordState.noConfusion rfl
  | foreign =>
      obtain ⟨outside, none⟩ := here
      exact .of_foreign ordered ok.blocks outside fun b mem maps => none ⟨b, mem, maps, trivial⟩

/-- The object found for a byte of a live block is the block. -/
theorem Sound.heapObjectAt_eq (pages : 16 ∣ A.page) (ok : Sound A s) (fits : s.Fits)
    (ordered : s.heap.huge.Ordered A) {q n : Nat} (live : s.LiveAt A q n) (low : q ≤ p)
    (high : p < q + n) :
    s.heap.heapObjectAt A p = ⟨true, true, q, n⟩ := by
  obtain ⟨place, partition⟩ := ok.places
  rcases live with ⟨x, word, rfl⟩ | ⟨b, mem, live, rfl, rfl⟩
  · have state : (s.heap.table.word x).state = .live := by rw [word]
    have used := partition.used_of_live state
    have small := fits x state
    rw [word] at small
    dsimp only at small
    have within : InRange (s.heap.table.slotBase A x) (s.heap.table.slotBytes x) p :=
      ⟨low, by omega⟩
    unfold Heap.heapObjectAt
    rw [if_pos (partition.inArena_of_slot used within), partition.slotOf_eq used within.1 within.2]
    simp [word]
  · have block := ok.blocks.block b mem
    have maps : b.Maps p := by
      have inside := block.inside
      have room := block.room
      have used := (used_le_pageBytes pages b.size).1
      unfold usedBytes at used
      exact ⟨inside.trans low, by omega⟩
    unfold Heap.heapObjectAt
    rw [block.not_inArena maps.1 maps.2, ordered.find_eq mem maps]
    simp [live]

/-- Every address is at a site. -/
theorem Sound.exists_site (ok : Sound A s) (p : Nat) : ∃ site, s.IsAt A p site := by
  obtain ⟨place, partition⟩ := ok.places
  by_cases start : ∃ n, s.LiveAt A p n
  · obtain ⟨n, live⟩ := start
    exact ⟨.start n, live⟩
  have none (n : Nat) (live : s.LiveAt A p n) : False := start ⟨n, live⟩
  cases inside : A.inArena p with
  | true =>
      have here := (partition.at_iff (s.heap.table.slotOf A p) _).mpr rfl
      cases placed : place (s.heap.table.slotOf A p) with
      | fresh => exact ⟨.unallocated, .inl ⟨inside, _, rfl, placed ▸ here⟩⟩
      | free => exact ⟨.unallocated, .inr (.inl ⟨inside, _, rfl, placed ▸ here⟩)⟩
      | cached | taken =>
          rw [placed] at here
          refine ⟨.unallocated, .inr (.inr ⟨inside, _, ?_, here⟩)⟩
          trivial
      | live => exact ⟨.inside, none, .inl ⟨inside, _, rfl, placed ▸ here⟩⟩
      | retiring | released =>
          rw [placed] at here
          refine ⟨.released, .inl ⟨inside, _, ?_, here⟩⟩
          trivial
      | queued => exact ⟨.released, .inr (.inl ⟨inside, _, rfl, placed ▸ here⟩)⟩
  | false =>
      by_cases mapped : ∃ b ∈ s.heap.huge.blocks, b.Maps p
      · obtain ⟨b, mem, maps⟩ := mapped
        by_cases live : b.dead = 0
        · exact ⟨.inside, none, .inr ⟨b, mem, maps, live⟩⟩
        · exact ⟨.released, .inr (.inr ⟨b, mem, maps, live⟩)⟩
      · exact ⟨.foreign, inside, fun ⟨b, mem, maps, _⟩ => mapped ⟨b, mem, maps⟩⟩

end Every

/-! ## Every run -/

/-- A release goes on from its lookup unless it reports. -/
theorem release_isSome_iff (A : Arena) (h : Heap) (th : Thread) (p : Nat) :
    (Thread.release A h th p).isSome ↔ h.refusal A p = none := by
  unfold Thread.release Heap.refusal
  by_cases inside : A.inArena p = true
  · rw [if_pos inside, if_pos inside]
    dsimp only
    split_ifs <;> simp
  · rw [if_neg inside, if_neg inside]
    cases freed : h.hugeFree p with
    | some h' => simp
    | none =>
        dsimp only
        cases found : h.huge.find p <;> simp

/-- In every reachable state each address is at one site, and every lookup finds
it there: a release reports exactly where no live block starts in the
allocator's memory, and says why; the object found for a byte of a live block is
the block. -/
theorem lookups_exact [DecidableEq T] (pages : 16 ∣ A.page) {byte : Nat → UInt8}
    (run : Run (State.step A) State.NoRace (.initial A byte) s) (p : Nat) :
    ∃ site, s.IsAt A p site ∧ (∀ site', s.IsAt A p site' → site' = site) ∧
      s.heap.refusal A p = site.refusal ∧ s.heap.ownedSize A p = site.ownedSize ∧
        (∀ nextSize, p ≠ 0 → s.heap.size A nextSize p = site.size (nextSize p)) ∧
          (s.heap.heapObjectAt A p).live = site.isLive ∧
            (site ≠ .unallocated → (s.heap.heapObjectAt A p).found = site.isObject) ∧
              (∀ q n, s.LiveAt A q n → q ≤ p → p < q + n →
                s.heap.heapObjectAt A p = ⟨true, true, q, n⟩) ∧
                ∀ th : Thread, (Thread.release A s.heap th p).isSome ↔ site.refusal = none := by
  have ordered := ordered_run run
  obtain ⟨ok, fits⟩ : Sound A s ∧ s.Fits := by
    refine run.invariant (I := fun s => Sound A s ∧ s.Fits)
      ⟨sound_initial A byte, fits_initial A byte⟩ ?_
    rintro s e s' ⟨ok, fits⟩ quiet taken
    refine ⟨ok.step pages quiet taken, fun x live => ?_⟩
    obtain ⟨h, th, found, rfl⟩ := State.step_eq_some taken
    exact fits.step ok found live
  obtain ⟨site, here⟩ := ok.exists_site p
  have finds := ok.finds fits ordered here
  refine ⟨site, here, fun site' here' => (ok.finds fits ordered here').unique finds, finds.refusal,
    finds.ownedSize, finds.size, finds.live, finds.object,
    fun q n live low high => ok.heapObjectAt_eq pages fits ordered live low high, fun th => ?_⟩
  rw [release_isSome_iff, finds.refusal]

/-- The second byte of a block is no block's start. -/
theorem lookups_exact_inside : ∃ s : State Unit,
    Run (State.step .sample) State.NoRace (.initial .sample fun _ => 0) s ∧
      ∃ site, s.IsAt .sample 0x1480000001 site ∧ site.isLive = true ∧
        site.refusal = some "not the start of its block" := by
  obtain ⟨s, run, seen⟩ : ∃ s : State Unit,
      Run (State.step .sample) State.NoRace (.initial .sample fun _ => 0) s ∧
        (s.heap.refusal .sample 0x1480000001, (s.heap.heapObjectAt .sample 0x1480000001).live) =
          (some "not the start of its block", true) :=
    Run.exists_exec [.enter () (.alloc 40000 0), .next (), .next (), .next (), .next (), .next ()]
      (by decide +kernel)
  obtain ⟨refused, live⟩ := Prod.mk.inj seen
  obtain ⟨site, here, -, refusal, -, -, object, -⟩ :=
    lookups_exact (by decide) run 0x1480000001
  exact ⟨s, run, site, here, object.symm.trans live, refusal.symm.trans refused⟩

end WeaveC.Alloc
