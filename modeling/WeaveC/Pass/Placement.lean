import WeaveC.Library.Settling
import WeaveC.Pass.FrameSpec

/-!
# Placing locals in 64-bit words

Each local of a frame goes to the lowest aligned offset where its extent, the
local and its redzone, meets no extent of a local alive with it.  The search
starts over whenever it moved.  Offsets and sizes are words that wrap; while the
extents and the alignments together fit a word, none does.
-/

namespace WeaveC.Pass

open WeaveC.Library

/-! ## The code -/

/-- A local to place; `alloca` tells it from the others. -/
structure Local (α : Type) where
  alloca : α
  size : BitVec 64
  alignLog : Nat
  word : alignLog < 64

/-- `paddedSize`. -/
def paddedWord (size : BitVec 64) : BitVec 64 :=
  let eighth := size / 8#64
  let zone := if eighth < 32#64 then 32#64 else if 4096#64 < eighth then 4096#64 else eighth
  (size + zone + 31#64) &&& ~~~31#64

/-- The next multiple of a power of two. -/
def roundUp (offset align : BitVec 64) : BitVec 64 := (offset + align - 1#64) &&& ~~~(align - 1#64)

namespace Local

variable {α : Type} (o : Local α)

def align : BitVec 64 :=
  let own := 1#64 <<< o.alignLog
  if own < 32#64 then 32#64 else own

def extent : BitVec 64 := paddedWord o.size

end Local

structure Placed (α : Type) where
  object : Local α
  offset : BitVec 64

def Placed.extentEnd {α : Type} (p : Placed α) : BitVec 64 := p.offset + p.object.extent

section Place

variable {α : Type} (together : α → α → Bool)

/-- Where a local already placed moves one that clashes with it. -/
def clash (o : Local α) (other : Placed α) (offset : BitVec 64) : Option (BitVec 64) :=
  if offset < other.extentEnd ∧ other.offset < offset + o.extent ∧
      together other.object.alloca o.alloca then
    some (roundUp other.extentEnd o.align)
  else none

/-- The body of `place`: the locals placed and the frame's size.  The fuel
bounds the passes. -/
def placeNext (fuel : Nat) (frame : List (Placed α) × BitVec 64) (o : Local α) :
    Option (List (Placed α) × BitVec 64) :=
  (Settling.settle (clash together o) frame.1 fuel (roundUp 64#64 o.align)).map fun offset =>
    let p : Placed α := ⟨o, offset⟩
    (frame.1 ++ [p], if frame.2 < p.extentEnd then p.extentEnd else frame.2)

def placeFrom (fuel : Nat) : List (Local α) → List (Placed α) × BitVec 64 →
    Option (List (Placed α) × BitVec 64)
  | [], frame => some frame
  | o :: rest, frame => (placeNext together fuel frame o).bind (placeFrom fuel rest)

def placeWords (fuel : Nat) (locals : List (Local α)) : Option (List (Placed α) × BitVec 64) :=
  placeFrom together fuel locals ([], 64#64)

end Place

/-! ## What is asked of it -/

/-- The extents have no byte in common. -/
def Placed.Apart {α : Type} (p q : Placed α) : Prop :=
  p.extentEnd.toNat ≤ q.offset.toNat ∨ q.extentEnd.toNat ≤ p.offset.toNat

/-- A local where it belongs in a frame of `size` bytes. -/
structure Placed.Within {α : Type} (p : Placed α) (size : Nat) : Prop where
  extent : p.extentEnd.toNat = p.offset.toNat + paddedSize p.object.size.toNat
  zone : LeftZone ≤ p.offset.toNat
  aligned : 2 ^ p.object.alignLog ∣ p.offset.toNat
  redzone : p.offset.toNat + p.object.size.toNat + 16 ≤ p.extentEnd.toNat
  boundary : 32 ∣ p.extentEnd.toNat
  within : p.extentEnd.toNat ≤ size

/-- The locals, each where it belongs, any two alive together apart. -/
structure PlacedAll {α : Type} (together : α → α → Bool) (locals : List (Local α))
    (frame : List (Placed α) × BitVec 64) : Prop where
  objects : frame.1.map Placed.object = locals
  within : ∀ p ∈ frame.1, p.Within frame.2.toNat
  apart : frame.1.Pairwise fun p q =>
    together p.object.alloca q.object.alloca = true → p.Apart q

/-- The bytes a local takes at most: its extent and what aligning it skips. -/
def Local.room {α : Type} (o : Local α) : Nat :=
  paddedSize o.size.toNat + max FrameAlign (2 ^ o.alignLog)

def totalRoom {α : Type} (locals : List (Local α)) : Nat := (locals.map Local.room).sum

/-! ## Words that do not wrap -/

theorem toNat_and_not {x mask : BitVec 64} {k : Nat} (low : mask.toNat = 2 ^ k - 1) :
    (x &&& ~~~mask).toNat = x.toNat / 2 ^ k * 2 ^ k := by
  have disjoint : (x &&& mask) &&& (x &&& ~~~mask) = 0#64 := by
    ext i
    simp only [BitVec.getElem_and, BitVec.getElem_not, BitVec.getElem_zero]
    cases x[i] <;> cases mask[i] <;> rfl
  have parts : (x &&& mask) + (x &&& ~~~mask) = x := by
    rw [BitVec.add_eq_or_of_and_eq_zero _ _ disjoint]
    ext i
    simp only [BitVec.getElem_or, BitVec.getElem_and, BitVec.getElem_not]
    cases x[i] <;> cases mask[i] <;> rfl
  have sum : (x &&& mask).toNat + (x &&& ~~~mask).toNat = x.toNat := by
    rw [← BitVec.toNat_add_of_and_eq_zero disjoint, parts]
  have rest : (x &&& mask).toNat = x.toNat % 2 ^ k := by
    rw [BitVec.toNat_and, low, Nat.and_two_pow_sub_one_eq_mod]
  have whole := Nat.div_add_mod' x.toNat (2 ^ k)
  omega

theorem toNat_roundUp {offset align : BitVec 64} {k : Nat} (power : align.toNat = 2 ^ k)
    (small : offset.toNat + 2 ^ k ≤ 2 ^ 64) :
    (roundUp offset align).toNat = alignTo offset.toNat (2 ^ k) := by
  have positive : 0 < 2 ^ k := Nat.two_pow_pos k
  have mask : (align - 1#64).toNat = 2 ^ k - 1 := by
    rw [BitVec.toNat_sub, power]
    have : 2 ^ k < 2 ^ 64 := power ▸ align.isLt
    change (2 ^ 64 - 1 + 2 ^ k) % 2 ^ 64 = _
    omega
  have sum : (offset + align - 1#64).toNat = offset.toNat + 2 ^ k - 1 := by
    rw [BitVec.toNat_sub, BitVec.toNat_add, power]
    change (2 ^ 64 - 1 + (offset.toNat + 2 ^ k) % 2 ^ 64) % 2 ^ 64 = _
    omega
  unfold roundUp alignTo
  rw [toNat_and_not mask, sum]

theorem toNat_paddedWord {size : BitVec 64} (small : paddedSize size.toNat < 2 ^ 64) :
    (paddedWord size).toNat = paddedSize size.toNat := by
  have eighth : (size / 8#64).toNat = size.toNat / 8 := BitVec.toNat_udiv
  have zone : (if size / 8#64 < 32#64 then 32#64
      else if 4096#64 < size / 8#64 then 4096#64 else size / 8#64).toNat =
        max 32 (min (size.toNat / 8) 4096) := by
    simp only [BitVec.lt_def, eighth]
    change (if size.toNat / 8 < 32 then 32#64
      else if 4096 < size.toNat / 8 then 4096#64 else size / 8#64).toNat = _
    split_ifs with low high
    · change 32 = _
      omega
    · change 4096 = _
      omega
    · rw [eighth]
      omega
  unfold paddedSize at small ⊢
  unfold paddedWord
  dsimp only
  rw [toNat_and_not (k := 5) rfl, BitVec.toNat_add, BitVec.toNat_add, zone]
  change ((size.toNat + max 32 (min (size.toNat / 8) 4096)) % 2 ^ 64 + 31) % 2 ^ 64 / 32 * 32 = _
  omega

namespace Local

variable {α : Type} (o : Local α)

/-- The alignment is a power of two from 32 on. -/
theorem align_power : ∃ k, o.align.toNat = 2 ^ k ∧ 2 ^ k = max FrameAlign (2 ^ o.alignLog) ∧
    5 ≤ k ∧ o.alignLog ≤ k := by
  have own : (1#64 <<< o.alignLog).toNat = 2 ^ o.alignLog := by
    change ((1#64).toNat <<< o.alignLog) % 2 ^ 64 = _
    rw [show (1#64).toNat = 1 from rfl, Nat.one_shiftLeft]
    exact Nat.mod_eq_of_lt (Nat.pow_lt_pow_right (by decide) o.word)
  unfold align FrameAlign
  dsimp only
  split
  · rename_i below
    rw [BitVec.lt_def, own] at below
    change _ < 2 ^ 5 at below
    have less := (Nat.pow_lt_pow_iff_right (by decide)).mp below
    exact ⟨5, rfl, (Nat.max_eq_left (Nat.le_of_lt below)).symm, Nat.le_refl _, Nat.le_of_lt less⟩
  · rename_i above
    rw [BitVec.lt_def, own] at above
    change ¬ _ < 2 ^ 5 at above
    have more := (Nat.pow_le_pow_iff_right (by decide)).mp (Nat.not_lt.mp above)
    exact ⟨o.alignLog, own, (Nat.max_eq_right (Nat.not_lt.mp above)).symm, more, Nat.le_refl _⟩

end Local

/-! ## Placing one local -/

section Next

variable {α : Type} {together : α → α → Bool} {placed : List (Placed α)} {o : Local α}

/-- Offsets the search goes through: aligned, from the left zone on, below the
bound of the extents placed and what aligning skips. -/
structure Candidate (o : Local α) (bound : Nat) (offset : BitVec 64) : Prop where
  zone : LeftZone ≤ offset.toNat
  aligned : o.align.toNat ∣ offset.toNat
  below : offset.toNat < bound + o.align.toNat

theorem clash_some {other : Placed α} {offset next : BitVec 64}
    (moved : clash together o other offset = some next) :
    offset < other.extentEnd ∧ next = roundUp other.extentEnd o.align := by
  unfold clash at moved
  split at moved
  · rename_i overlap
    exact ⟨overlap.1, (Option.some.inj moved).symm⟩
  · cases moved

theorem clash_none {other : Placed α} {offset : BitVec 64}
    (stays : clash together o other offset = none)
    (alive : together other.object.alloca o.alloca = true) :
    other.extentEnd.toNat ≤ offset.toNat ∨ (offset + o.extent).toNat ≤ other.offset.toNat := by
  unfold clash at stays
  split at stays
  · cases stays
  · rename_i apart
    by_contra overlap
    obtain ⟨before, after⟩ := not_or.mp overlap
    exact apart ⟨BitVec.lt_def.mpr (Nat.not_le.mp before), BitVec.lt_def.mpr (Nat.not_le.mp after),
      alive⟩

/-- A start or an end rounded up is a candidate. -/
theorem candidate_roundUp {bound : Nat} {offset : BitVec 64} (above : LeftZone ≤ offset.toNat)
    (below : offset.toNat ≤ bound) (fits : bound + o.align.toNat ≤ 2 ^ 64) :
    Candidate o bound (roundUp offset o.align) ∧
      offset.toNat ≤ (roundUp offset o.align).toNat := by
  obtain ⟨k, power, -⟩ := o.align_power
  have positive : 0 < 2 ^ k := Nat.two_pow_pos k
  have value := @toNat_roundUp offset o.align k power (by omega)
  have larger : offset.toNat ≤ alignTo offset.toNat (2 ^ k) := le_alignTo positive
  refine ⟨⟨?_, ?_, ?_⟩, ?_⟩
  · rw [value]
    exact above.trans larger
  · rw [value, power]
    exact dvd_alignTo (Nat.dvd_refl _)
  · rw [value, power]
    have least : alignTo offset.toNat (2 ^ k) ≤ offset.toNat + 2 ^ k - 1 := Nat.div_mul_le_self _ _
    omega
  · rw [value]
    exact larger

/-- A move goes on to a later candidate. -/
theorem clash_keeps {bound : Nat}
    (ends : ∀ p ∈ placed, LeftZone ≤ p.extentEnd.toNat ∧ p.extentEnd.toNat ≤ bound)
    (fits : bound + o.align.toNat ≤ 2 ^ 64) (p : Placed α) (mem : p ∈ placed)
    (offset next : BitVec 64) (_ : Candidate o bound offset)
    (moved : clash together o p offset = some next) :
    Candidate o bound next ∧ offset.toNat < next.toNat := by
  obtain ⟨before, rfl⟩ := clash_some moved
  obtain ⟨above, below⟩ := ends p mem
  obtain ⟨candidate, larger⟩ := candidate_roundUp above below fits
  exact ⟨candidate, (BitVec.lt_def.mp before).trans_le larger⟩

/-- The search ends at a candidate that no local alive with this one meets. -/
theorem settle_candidate {bound : Nat} (zone : LeftZone ≤ bound)
    (ends : ∀ p ∈ placed, LeftZone ≤ p.extentEnd.toNat ∧ p.extentEnd.toNat ≤ bound)
    (fits : bound + o.align.toNat ≤ 2 ^ 64) :
    ∃ offset, Settling.settle (clash together o) placed (2 ^ 64 + 1) (roundUp 64#64 o.align) =
        some offset ∧ Candidate o bound offset ∧
      ∀ p ∈ placed, clash together o p offset = none := by
  have first : Candidate o bound (roundUp 64#64 o.align) :=
    (candidate_roundUp (Nat.le_refl _) zone fits).1
  exact Settling.settle_ends (clash_keeps ends fits) (fun offset _ => Nat.le_of_lt offset.isLt) _
    first _ (by omega)

theorem toNat_extent (fits : o.room ≤ 2 ^ 64) : o.extent.toNat = paddedSize o.size.toNat := by
  have skips : 32 ≤ max FrameAlign (2 ^ o.alignLog) := Nat.le_max_left _ _
  unfold Local.room at fits
  exact toNat_paddedWord (by omega)

/-- At a candidate below the frame's bound the local is where it belongs, and no
sum wraps. -/
theorem Candidate.within {bound size : Nat} {offset : BitVec 64}
    (candidate : Candidate o bound offset) (fits : bound + o.room ≤ 2 ^ 64)
    (inside : (Placed.mk o offset).extentEnd.toNat ≤ size) :
    (Placed.mk o offset).Within size := by
  obtain ⟨k, power, room, least, own⟩ := o.align_power
  obtain ⟨zone, aligned, below⟩ := candidate
  rw [power] at aligned below
  have extent := @toNat_extent α o (by omega)
  unfold Local.room at fits
  rw [← room] at fits
  have stop : (Placed.mk o offset).extentEnd.toNat = offset.toNat + paddedSize o.size.toNat := by
    change (offset + o.extent).toNat = _
    rw [BitVec.toNat_add, extent]
    exact Nat.mod_eq_of_lt (by omega)
  have redzone := lt_paddedSize o.size.toNat
  refine ⟨stop, zone, (Nat.pow_dvd_pow 2 own).trans aligned, ?_, ?_, inside⟩
  · rw [stop]
    change offset.toNat + o.size.toNat + 16 ≤ _
    omega
  · rw [stop]
    have whole : 32 ∣ 2 ^ k := Nat.pow_dvd_pow 2 least
    exact Nat.dvd_add (whole.trans aligned) (dvd_paddedSize _)

theorem Placed.Within.mono {p : Placed α} {size size' : Nat} (within : p.Within size)
    (more : size ≤ size') : p.Within size' :=
  { within with within := within.within.trans more }

theorem totalRoom_append (done rest : List (Local α)) :
    totalRoom (done ++ rest) = totalRoom done + totalRoom rest := by
  unfold totalRoom
  rw [List.map_append, List.sum_append]

/-- One more local placed, in a frame that grows by no more than its room. -/
theorem placeNext_placed {done : List (Local α)} {frame : List (Placed α) × BitVec 64}
    (all : PlacedAll together done frame) (zone : LeftZone ≤ frame.2.toNat)
    (bounded : frame.2.toNat ≤ LeftZone + totalRoom done)
    (fits : LeftZone + totalRoom (done ++ [o]) ≤ 2 ^ 64) :
    ∃ frame', placeNext together (2 ^ 64 + 1) frame o = some frame' ∧
      PlacedAll together (done ++ [o]) frame' ∧ LeftZone ≤ frame'.2.toNat ∧
        frame'.2.toNat ≤ LeftZone + totalRoom (done ++ [o]) := by
  have one : totalRoom [o] = o.room := rfl
  rw [totalRoom_append, one] at fits ⊢
  obtain ⟨k, power, room, -, -⟩ := o.align_power
  have parts : o.room = paddedSize o.size.toNat + 2 ^ k := by
    rw [room]
    rfl
  have ends : ∀ p ∈ frame.1, LeftZone ≤ p.extentEnd.toNat ∧
      p.extentEnd.toNat ≤ LeftZone + totalRoom done := by
    intro p mem
    obtain ⟨-, above, -, redzone, -, inside⟩ := all.within p mem
    omega
  obtain ⟨offset, found, candidate, quiet⟩ :=
    @settle_candidate α together frame.1 o _ (Nat.le_add_right _ _) ends
      (by rw [power]; omega)
  have below := candidate.below
  rw [power] at below
  unfold placeNext
  rw [found]
  refine ⟨_, rfl, ?_⟩
  have grown : ∀ size : BitVec 64, frame.2.toNat ≤ size.toNat →
      (Placed.mk o offset).extentEnd.toNat ≤ size.toNat →
        PlacedAll together (done ++ [o]) (frame.1 ++ [⟨o, offset⟩], size) := by
    intro size more inside
    have here := candidate.within (by omega) inside
    refine ⟨?_, ?_, ?_⟩
    · change (frame.1 ++ _).map _ = _
      rw [List.map_append, all.objects]
      rfl
    · intro p mem
      cases List.mem_append.mp mem with
      | inl old => exact (all.within p old).mono more
      | inr new =>
          obtain rfl := List.mem_singleton.mp new
          exact here
    · refine List.pairwise_append.mpr ⟨all.apart, List.pairwise_singleton _ _, ?_⟩
      intro p mem q last alive
      obtain rfl := List.mem_singleton.mp last
      exact clash_none (quiet p mem) alive
  have stop := (candidate.within (by omega) (Nat.le_refl _)).extent
  dsimp only at stop
  dsimp only
  split
  · rename_i larger
    have longer := BitVec.lt_def.mp larger
    exact ⟨grown _ (Nat.le_of_lt longer) (Nat.le_refl _), by omega, by omega⟩
  · rename_i smaller
    rw [BitVec.lt_def, Nat.not_lt] at smaller
    exact ⟨grown _ (Nat.le_refl _) smaller, zone, by omega⟩

end Next

/-! ## Placing them all -/

section All

variable {α : Type} (together : α → α → Bool)

theorem placeFrom_placed (rest done : List (Local α)) (frame : List (Placed α) × BitVec 64)
    (all : PlacedAll together done frame) (zone : LeftZone ≤ frame.2.toNat)
    (bounded : frame.2.toNat ≤ LeftZone + totalRoom done)
    (fits : LeftZone + totalRoom (done ++ rest) ≤ 2 ^ 64) :
    ∃ frame', placeFrom together (2 ^ 64 + 1) rest frame = some frame' ∧
      PlacedAll together (done ++ rest) frame' := by
  induction rest generalizing done frame with
  | nil =>
      rw [List.append_nil]
      exact ⟨frame, rfl, all⟩
  | cons o rest ih =>
      have split : done ++ o :: rest = done ++ [o] ++ rest := List.append_cons _ _ _
      rw [split] at fits ⊢
      have first : LeftZone + totalRoom (done ++ [o]) ≤ 2 ^ 64 := by
        rw [totalRoom_append _ rest] at fits
        omega
      obtain ⟨frame', placed, all', zone', bounded'⟩ := placeNext_placed all zone bounded first
      obtain ⟨last, rest', done'⟩ := ih _ frame' all' zone' bounded' fits
      refine ⟨last, ?_, done'⟩
      unfold placeFrom
      rw [placed]
      exact rest'

/-- Whatever is alive together, placing ends, and each local is where it
belongs. -/
theorem placeWords_placed (locals : List (Local α))
    (fits : LeftZone + totalRoom locals ≤ 2 ^ 64) :
    ∃ fuel frame, placeWords together fuel locals = some frame ∧
      PlacedAll together locals frame := by
  have start : PlacedAll together [] ([], 64#64) :=
    ⟨rfl, fun _ mem => absurd mem List.not_mem_nil, .nil⟩
  obtain ⟨frame, placed, all⟩ :=
    placeFrom_placed together locals [] ([], 64#64) start (Nat.le_refl _) (Nat.le_refl _) fits
  exact ⟨_, frame, placed, all⟩

/-- A local of 100 bytes beside an aligned one. -/
theorem placeWords_placed_pair :
    LeftZone + totalRoom [⟨0, 100#64, 3, by decide⟩, ⟨1, 8#64, 6, by decide⟩] ≤ 2 ^ 64 ∧
      ∃ fuel frame, placeWords (fun a b : Nat => decide (a ≠ b)) fuel
          [⟨0, 100#64, 3, by decide⟩, ⟨1, 8#64, 6, by decide⟩] = some frame ∧
        PlacedAll (fun a b : Nat => decide (a ≠ b))
          [⟨0, 100#64, 3, by decide⟩, ⟨1, 8#64, 6, by decide⟩] frame :=
  ⟨by decide, placeWords_placed _ _ (by decide)⟩

end All

/-- Two locals of one byte that need the largest alignment of a word: the second
search wraps to the frame's start. -/
theorem place_wraps : ¬ ∀ (together : Nat → Nat → Bool), (∀ a b, together a b = together b a) →
    ∀ locals : List (Local Nat), (locals.map fun o => paddedSize o.size.toNat).sum < 2 ^ 63 →
      ∃ fuel frame, placeWords together fuel locals = some frame ∧
        PlacedAll together locals frame := by
  intro all
  obtain ⟨fuel, frame, placed, belongs⟩ := all (fun _ _ => true) (fun _ _ => rfl)
    [⟨0, 1#64, 63, by decide⟩, ⟨1, 1#64, 63, by decide⟩] (by decide)
  rcases fuel with _ | _ | more
  · cases placed
  · cases placed
  · have found : placeWords (fun _ _ => true) (more + 2)
        [⟨0, 1#64, 63, by decide⟩, ⟨1, 1#64, 63, by decide⟩] =
          some ([⟨⟨0, 1#64, 63, by decide⟩, 0x8000000000000000#64⟩,
            ⟨⟨1, 1#64, 63, by decide⟩, 0#64⟩], 0x8000000000000040#64) := rfl
    rw [found] at placed
    obtain rfl := Option.some.inj placed
    have low := (belongs.within _ (List.mem_cons_of_mem _ List.mem_cons_self)).zone
    exact absurd low (by decide)

/-! ## The layout's frame -/

section Layout

variable {P : Type} [DecidableEq P] {f : Function P} {sharing : Bool}

/-- A local as an object of the layout. -/
def Placed.frameObject (p : Placed FrameObject) : FrameObject :=
  { p.object.alloca with offset := p.offset.toNat }

/-- The words of a local hold its object's size and alignment. -/
def Local.Reads (o : Local FrameObject) : Prop :=
  o.size.toNat = o.alloca.size ∧ o.alignLog = o.alloca.alignLog

variable {placed : List (Placed FrameObject)} {o : Local FrameObject}

theorem Placed.Within.frameObject_extentEnd {p : Placed FrameObject} {size : Nat}
    (within : p.Within size) (reads : p.object.Reads) :
    p.frameObject.extentEnd = p.extentEnd.toNat := by
  rw [within.extent, reads.1]
  rfl

/-- A pass over words is one over the numbers they hold. -/
theorem bump_foldl_eq {bound size : Nat} (reads : o.Reads)
    (old : ∀ p ∈ placed, p.Within size ∧ p.object.Reads) (zone : LeftZone ≤ bound)
    (inside : size ≤ bound) (fits : bound + o.room ≤ 2 ^ 64) (found : BitVec 64 × Bool)
    (candidate : Candidate o bound found.1) :
    (placed.map Placed.frameObject).foldl (f.bump sharing o.alloca) (found.1.toNat, found.2) =
      ((Settling.pass (clash (f.together sharing) o) placed found).1.toNat,
        (Settling.pass (clash (f.together sharing) o) placed found).2) := by
  induction placed generalizing found with
  | nil => rfl
  | cons p placed ih =>
      have later := fun q (mem : q ∈ placed) => old q (List.mem_cons_of_mem _ mem)
      obtain ⟨within, own⟩ := old p List.mem_cons_self
      obtain ⟨k, power, room, -, -⟩ := o.align_power
      have below := candidate.below
      have parts : o.room = paddedSize o.size.toNat + 2 ^ k := by
        rw [room]
        rfl
      rw [power] at below
      have sum : (found.1 + o.extent).toNat = found.1.toNat + paddedSize o.alloca.size := by
        rw [BitVec.toNat_add, toNat_extent (by omega), ← reads.1]
        exact Nat.mod_eq_of_lt (by omega)
      have stop := within.frameObject_extentEnd own
      have same : (found.1 < p.extentEnd ∧ p.offset < found.1 + o.extent ∧
          f.together sharing p.object.alloca o.alloca = true) ↔
          (found.1.toNat < p.frameObject.extentEnd ∧
            p.frameObject.offset < found.1.toNat + paddedSize o.alloca.size ∧
              f.together sharing p.frameObject o.alloca = true) := by
        rw [BitVec.lt_def, BitVec.lt_def, sum, stop]
        rfl
      rw [List.map_cons, List.foldl_cons]
      by_cases overlap : found.1 < p.extentEnd ∧ p.offset < found.1 + o.extent ∧
          f.together sharing p.object.alloca o.alloca = true
      · have moved : clash (f.together sharing) o p found.1 =
            some (roundUp p.extentEnd o.align) := if_pos overlap
        have bumped : f.bump sharing o.alloca (found.1.toNat, found.2) p.frameObject =
            (alignTo p.frameObject.extentEnd o.alloca.align, true) := if_pos (same.mp overlap)
        have ends := within.within
        have value : alignTo p.frameObject.extentEnd o.alloca.align =
            (roundUp p.extentEnd o.align).toNat := by
          have own' : o.alloca.align = 2 ^ k := by
            rw [room, reads.2]
            rfl
          rw [stop, own', toNat_roundUp power (by omega)]
        have redzone := within.redzone
        have above := within.zone
        obtain ⟨next, -⟩ := @candidate_roundUp _ o bound p.extentEnd (by omega) (by omega)
          (by rw [power]; omega)
        rw [Settling.pass_cons_of_some moved, bumped, value]
        exact ih later (roundUp p.extentEnd o.align, true) next
      · have stays : clash (f.together sharing) o p found.1 = none := if_neg overlap
        have kept : f.bump sharing o.alloca (found.1.toNat, found.2) p.frameObject =
            (found.1.toNat, found.2) := if_neg fun clashes => overlap (same.mpr clashes)
        rw [Settling.pass_cons_of_none stays, kept]
        exact ih later found candidate

/-- The search over words ends where the one over numbers does. -/
theorem settle_eq {bound size : Nat} (reads : o.Reads)
    (old : ∀ p ∈ placed, p.Within size ∧ p.object.Reads) (zone : LeftZone ≤ bound)
    (inside : size ≤ bound) (fits : bound + o.room ≤ 2 ^ 64) {fuel passes : Nat}
    {offset last : BitVec 64} (candidate : Candidate o bound offset)
    (found : Settling.settle (clash (f.together sharing) o) placed fuel offset = some last)
    (enough : Function.lastEnd (placed.map Placed.frameObject) < offset.toNat + passes) :
    f.settle sharing (placed.map Placed.frameObject) o.alloca passes offset.toNat =
      last.toNat := by
  have ends : ∀ p ∈ placed, LeftZone ≤ p.extentEnd.toNat ∧ p.extentEnd.toNat ≤ bound := by
    intro p mem
    obtain ⟨-, above, -, redzone, -, within⟩ := (old p mem).1
    omega
  have short : bound + o.align.toNat ≤ 2 ^ 64 := by
    obtain ⟨k, power, room, -, -⟩ := o.align_power
    have parts : o.room = paddedSize o.size.toNat + max FrameAlign (2 ^ o.alignLog) := rfl
    rw [power, room]
    omega
  have keeps := @clash_keeps _ (f.together sharing) placed o bound ends short
  induction fuel generalizing passes offset with
  | zero => cases found
  | succ fuel ih =>
      have words := @bump_foldl_eq P _ f sharing placed o bound size reads old zone inside fits
        (offset, false) candidate
      cases passes with
      | zero =>
          have still : ∀ p ∈ placed, clash (f.together sharing) o p offset = none := by
            intro p mem
            obtain ⟨within, own⟩ := old p mem
            have ends := @Function.extentEnd_le_lastEnd (placed.map Placed.frameObject)
              p.frameObject (List.mem_map_of_mem mem)
            rw [within.frameObject_extentEnd own] at ends
            refine if_neg fun overlap => ?_
            have before := BitVec.lt_def.mp overlap.1
            omega
          have quiet : (Settling.pass (clash (f.together sharing) o) placed (offset, false)).2 =
              false := by
            rw [Settling.pass_still still]
          rw [Settling.settle_of_quiet quiet] at found
          obtain rfl := Option.some.inj found
          rfl
      | succ passes =>
          unfold Function.settle
          dsimp only
          dsimp only at words
          rw [words]
          dsimp only
          cases noticed :
              (Settling.pass (clash (f.together sharing) o) placed (offset, false)).2 with
          | true =>
              have later := Settling.pass_lt keeps candidate noticed
              have next : Candidate o bound
                  (Settling.pass (clash (f.together sharing) o) placed (offset, false)).1 :=
                Settling.pass_keeps (fun p mem x y before moved => (keeps p mem x y before moved).1)
                  candidate
              rw [Settling.settle_of_noticed noticed] at found
              exact ih next found (by omega)
          | false =>
              rw [Settling.settle_of_quiet noticed] at found
              obtain rfl := Option.some.inj found
              rw [(Settling.pass_quiet noticed).1]
              rfl

/-- The layout's frame with one more object is the frame of words with it. -/
theorem placeOne_eq {done : List (Local FrameObject)}
    {frame frame' : List (Placed FrameObject) × BitVec 64} (reads : ∀ p ∈ done ++ [o], p.Reads)
    (all : PlacedAll (f.together sharing) done frame)
    (bounded : frame.2.toNat ≤ LeftZone + totalRoom done)
    (fits : LeftZone + totalRoom (done ++ [o]) ≤ 2 ^ 64)
    (placed : placeNext (f.together sharing) (2 ^ 64 + 1) frame o = some frame')
    (all' : PlacedAll (f.together sharing) (done ++ [o]) frame') :
    f.placeOne sharing (frame.1.map Placed.frameObject, frame.2.toNat) o.alloca =
      (frame'.1.map Placed.frameObject, frame'.2.toNat) := by
  have own : o.Reads := reads o (List.mem_append_right _ List.mem_cons_self)
  have one : totalRoom [o] = o.room := rfl
  rw [totalRoom_append, one] at fits
  have old : ∀ p ∈ frame.1, p.Within frame.2.toNat ∧ p.object.Reads := by
    intro p mem
    have known : p.object ∈ done := all.objects ▸ List.mem_map_of_mem mem
    exact ⟨all.within p mem, reads _ (List.mem_append_left _ known)⟩
  obtain ⟨k, power, room, -, -⟩ := o.align_power
  have parts : o.room = paddedSize o.size.toNat + 2 ^ k := by
    rw [room]
    rfl
  have align : o.alloca.align = 2 ^ k := by
    rw [room, own.2]
    rfl
  obtain ⟨first, -⟩ := @candidate_roundUp _ o (LeftZone + totalRoom done) 64#64 (Nat.le_refl _)
    (Nat.le_add_right _ _) (by rw [power]; omega)
  have start : (roundUp 64#64 o.align).toNat = alignTo LeftZone o.alloca.align := by
    rw [align]
    exact toNat_roundUp power (show 64 + 2 ^ k ≤ 2 ^ 64 by unfold LeftZone at fits; omega)
  unfold placeNext at placed
  obtain ⟨offset, found, rfl⟩ := Option.map_eq_some_iff.mp placed
  have settled := @settle_eq P _ f sharing frame.1 o _ _ own old (Nat.le_add_right _ _) bounded
    (by omega) _ (Function.lastEnd (frame.1.map Placed.frameObject) + 1) _ _ first found (by omega)
  rw [start] at settled
  have here := all'.within ⟨o, offset⟩ (List.mem_append_right _ List.mem_cons_self)
  have stop := here.frameObject_extentEnd own
  have size : max frame.2.toNat (Placed.mk o offset).extentEnd.toNat =
      (if frame.2 < (Placed.mk o offset).extentEnd then (Placed.mk o offset).extentEnd
        else frame.2).toNat := by
    split
    · rename_i larger
      exact Nat.max_eq_right (Nat.le_of_lt (BitVec.lt_def.mp larger))
    · rename_i smaller
      rw [BitVec.lt_def, Nat.not_lt] at smaller
      exact Nat.max_eq_left smaller
  unfold Function.placeOne
  dsimp only
  rw [settled, ← size, ← stop, List.map_append]
  rfl

/-- The layout places numbers as the code places words. -/
theorem place_eq (locals : List (Local FrameObject)) (reads : ∀ o ∈ locals, o.Reads)
    (fits : LeftZone + totalRoom locals ≤ 2 ^ 64) :
    ∃ fuel frame, placeWords (f.together sharing) fuel locals = some frame ∧
      f.place sharing (locals.map Local.alloca) =
        (frame.1.map Placed.frameObject, frame.2.toNat) := by
  have fold (rest done : List (Local FrameObject)) (frame : List (Placed FrameObject) × BitVec 64)
      (reads : ∀ o ∈ done ++ rest, o.Reads) (all : PlacedAll (f.together sharing) done frame)
      (zone : LeftZone ≤ frame.2.toNat) (bounded : frame.2.toNat ≤ LeftZone + totalRoom done)
      (fits : LeftZone + totalRoom (done ++ rest) ≤ 2 ^ 64) :
      ∃ last, placeFrom (f.together sharing) (2 ^ 64 + 1) rest frame = some last ∧
        (rest.map Local.alloca).foldl (f.placeOne sharing)
            (frame.1.map Placed.frameObject, frame.2.toNat) =
          (last.1.map Placed.frameObject, last.2.toNat) := by
    induction rest generalizing done frame with
    | nil => exact ⟨frame, rfl, rfl⟩
    | cons o rest ih =>
        rw [List.append_cons] at fits reads
        have first : LeftZone + totalRoom (done ++ [o]) ≤ 2 ^ 64 := by
          rw [totalRoom_append _ rest] at fits
          omega
        obtain ⟨frame', placed, all', zone', bounded'⟩ := placeNext_placed all zone bounded first
        obtain ⟨last, more, same⟩ := ih _ frame' reads all' zone' bounded' fits
        refine ⟨last, ?_, ?_⟩
        · unfold placeFrom
          rw [placed]
          exact more
        · have known := fun p mem => reads p (List.mem_append_left _ mem)
          rw [List.map_cons, List.foldl_cons, placeOne_eq known all bounded first placed all']
          exact same
  obtain ⟨last, placed, same⟩ := fold locals [] ([], 64#64) reads
    ⟨rfl, fun _ mem => absurd mem List.not_mem_nil, .nil⟩ (Nat.le_refl _) (Nat.le_refl _) fits
  exact ⟨_, last, placed, same⟩

end Layout

end WeaveC.Pass
