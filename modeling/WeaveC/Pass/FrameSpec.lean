import WeaveC.Pass.Frame
import WeaveC.Runtime.Decided
import Mathlib.Data.List.Pairwise

/-!
# What a frame's shadow says

The extents of locals that may be live together are apart, so at every
instruction each granule of a local in scope has that local's value, and every
other granule of the frame is poison.  An end of a local that is already out of
scope is the exception.
-/

namespace WeaveC.Pass

open WeaveC.Runtime WeaveC.Library

/-! ## Placing -/

theorem le_alignTo {offset align : Nat} (positive : 0 < align) : offset ≤ alignTo offset align := by
  have rest : (offset + align - 1) % align < align := Nat.mod_lt _ positive
  have parts : align * ((offset + align - 1) / align) + (offset + align - 1) % align =
      offset + align - 1 := Nat.div_add_mod _ _
  unfold alignTo
  rw [Nat.mul_comm]
  omega

theorem dvd_alignTo {d offset align : Nat} (dvd : d ∣ align) : d ∣ alignTo offset align :=
  Dvd.dvd.mul_left dvd _

theorem dvd_max {d a b : Nat} (left : d ∣ a) (right : d ∣ b) : d ∣ max a b := by
  rcases max_choice a b with eq | eq <;> rw [eq] <;> assumption

theorem FrameObject.dvd_align (o : FrameObject) : 32 ∣ o.align := by
  unfold align FrameAlign
  by_cases small : o.alignLog < 5
  · have : 2 ^ o.alignLog ≤ 32 := Nat.pow_le_pow_right (by decide) (Nat.le_of_lt small)
    rw [Nat.max_eq_left this]
  · obtain ⟨more, eq⟩ := Nat.exists_eq_add_of_le (Nat.not_lt.mp small)
    refine dvd_max (Nat.dvd_refl 32) ?_
    rw [eq, Nat.pow_add]
    exact Nat.dvd_mul_right _ _

theorem FrameObject.align_pos (o : FrameObject) : 0 < o.align :=
  Nat.lt_of_lt_of_le (by decide) (Nat.le_max_left _ _)

theorem dvd_paddedSize (size : Nat) : 32 ∣ paddedSize size := Nat.dvd_mul_left _ _

theorem lt_paddedSize (size : Nat) : size + 32 ≤ paddedSize size := by
  unfold paddedSize
  have : 32 ≤ max 32 (min (size / 8) 4096) := Nat.le_max_left _ _
  omega

namespace FrameObject

/-- The extents of two objects have no byte in common. -/
def Apart (a b : FrameObject) : Prop := a.extentEnd ≤ b.offset ∨ b.extentEnd ≤ a.offset

theorem Apart.symm {a b : FrameObject} (apart : a.Apart b) : b.Apart a := Or.symm apart

end FrameObject

namespace Function

variable {P : Type} [DecidableEq P] {f : Function P} {sharing : Bool}

theorem together_comm (a b : FrameObject) : f.together sharing a b = f.together sharing b a := by
  have ranges : decide (Disjoint (f.liveRange a.alloca) (f.liveRange b.alloca)) =
      decide (Disjoint (f.liveRange b.alloca) (f.liveRange a.alloca)) :=
    decide_eq_decide.mpr disjoint_comm
  unfold together
  rw [ranges, Bool.or_right_comm (!sharing)]

/-- An object placed against one already placed. -/
def Settled (f : Function P) (sharing : Bool) (o : FrameObject) (offset : Nat)
    (other : FrameObject) : Prop :=
  f.together sharing other o = true →
    other.extentEnd ≤ offset ∨ offset + paddedSize o.size ≤ other.offset

/-- One pass of the loop over the objects already placed. -/
theorem bump_foldl (o : FrameObject) (placed : List FrameObject) (found : Nat × Bool)
    (aligned : 32 ∣ found.1) :
    let after := placed.foldl (f.bump sharing o) found
    32 ∣ after.1 ∧ found.1 ≤ after.1 ∧ (found.2 = true → after.2 = true) ∧
      (after.2 = false → after = found ∧ ∀ other ∈ placed, f.Settled sharing o found.1 other) ∧
      (after.2 = true → found.2 = true ∨
        found.1 < after.1 ∧ ∃ other ∈ placed, found.1 < other.extentEnd) := by
  induction placed generalizing found with
  | nil =>
    refine ⟨aligned, Nat.le_refl _, id, ?_, .inl⟩
    intro _
    refine ⟨rfl, ?_⟩
    intro other mem
    cases mem
  | cons other placed ih =>
    simp only [List.foldl_cons]
    by_cases clash : found.1 < other.extentEnd ∧ other.offset < found.1 + paddedSize o.size ∧
        f.together sharing other o = true
    · have moved : f.bump sharing o found other = (alignTo other.extentEnd o.align, true) :=
        if_pos clash
      have higher : found.1 < alignTo other.extentEnd o.align :=
        clash.1.trans_le (le_alignTo o.align_pos)
      rw [moved]
      obtain ⟨dvd, le, stays, no_clash, -⟩ :=
        ih (alignTo other.extentEnd o.align, true) (dvd_alignTo o.dvd_align)
      refine ⟨dvd, (Nat.le_of_lt higher).trans le, fun _ => stays rfl, ?_, ?_⟩
      · intro quiet
        exact absurd (stays rfl) (by rw [quiet]; decide)
      · intro _
        exact .inr ⟨higher.trans_le le, other, List.mem_cons_self, clash.1⟩
    · have same : f.bump sharing o found other = found := if_neg clash
      rw [same]
      obtain ⟨dvd, le, stays, no_clash, moved⟩ := ih found aligned
      refine ⟨dvd, le, stays, ?_, ?_⟩
      · intro quiet
        obtain ⟨eq, settled⟩ := no_clash quiet
        refine ⟨eq, ?_⟩
        intro another mem
        rcases List.mem_cons.mp mem with rfl | mem
        · intro live
          by_contra apart
          obtain ⟨overlaps, overlaps'⟩ := not_or.mp apart
          exact clash ⟨Nat.not_le.mp overlaps, Nat.not_le.mp overlaps', live⟩
        · exact settled another mem
      · intro clashed
        rcases moved clashed with before | ⟨higher, another, mem, below⟩
        · exact .inl before
        · exact .inr ⟨higher, another, List.mem_cons_of_mem _ mem, below⟩

theorem le_foldl_max {values : List Nat} {first : Nat} :
    first ≤ values.foldl max first ∧ ∀ v ∈ values, v ≤ values.foldl max first := by
  induction values generalizing first with
  | nil =>
    refine ⟨Nat.le_refl _, ?_⟩
    intro v mem
    cases mem
  | cons w values ih =>
    obtain ⟨from_first, members⟩ := @ih (max first w)
    refine ⟨(Nat.le_max_left _ _).trans from_first, ?_⟩
    intro v mem
    rcases List.mem_cons.mp mem with rfl | mem
    · exact (Nat.le_max_right _ _).trans from_first
    · exact members v mem

theorem extentEnd_le_lastEnd {placed : List FrameObject} {o : FrameObject} (mem : o ∈ placed) :
    o.extentEnd ≤ lastEnd placed :=
  le_foldl_max.2 _ (List.mem_map_of_mem mem)

/-- The loop ends at an offset where the object clashes with none. -/
theorem settle_spec {placed : List FrameObject} {o : FrameObject} {fuel offset : Nat}
    (aligned : 32 ∣ offset) (enough : lastEnd placed < offset + fuel) :
    offset ≤ f.settle sharing placed o fuel offset ∧
      32 ∣ f.settle sharing placed o fuel offset ∧
      ∀ other ∈ placed, f.Settled sharing o (f.settle sharing placed o fuel offset) other := by
  induction fuel generalizing offset with
  | zero =>
    refine ⟨Nat.le_refl _, aligned, ?_⟩
    intro other mem _
    have := extentEnd_le_lastEnd mem
    left
    change other.extentEnd ≤ offset
    omega
  | succ fuel ih =>
    obtain ⟨dvd, le, -, no_clash, moved⟩ := @bump_foldl P _ f sharing o placed
      (offset, false) aligned
    unfold settle
    simp only
    generalize found_eq : placed.foldl (f.bump sharing o) (offset, false) = found at *
    cases clashed : found.2 with
    | true =>
      simp only [if_true]
      rcases moved clashed with before | ⟨higher, -⟩
      · exact absurd before Bool.false_ne_true
      · obtain ⟨above, dvd, settled⟩ := ih dvd (by omega)
        exact ⟨le.trans above, dvd, settled⟩
    | false =>
      simp only [Bool.false_eq_true, if_false]
      obtain ⟨rfl, settled⟩ := no_clash clashed
      exact ⟨Nat.le_refl _, aligned, settled⟩

/-- Objects at their offsets in a frame of a size. -/
structure Laid (f : Function P) (sharing : Bool) (objects : List FrameObject) (size : Nat) :
    Prop where
  zone : ∀ o ∈ objects, LeftZone ≤ o.offset
  aligned : ∀ o ∈ objects, 32 ∣ o.offset
  within : ∀ o ∈ objects, o.extentEnd ≤ size
  whole : 32 ∣ size
  left_zone : LeftZone ≤ size
  apart : objects.Pairwise fun a b => f.together sharing a b = true → a.Apart b

theorem Laid.placeOne {objects : List FrameObject} {size : Nat}
    (laid : f.Laid sharing objects size) (o : FrameObject) :
    f.Laid sharing (f.placeOne sharing (objects, size) o).1
      (f.placeOne sharing (objects, size) o).2 := by
  have start_aligned : 32 ∣ alignTo LeftZone o.align := dvd_alignTo o.dvd_align
  have start_above : LeftZone ≤ alignTo LeftZone o.align := le_alignTo o.align_pos
  obtain ⟨above, aligned, settled⟩ :=
    @settle_spec P _ f sharing objects o (lastEnd objects + 1) _ start_aligned (by omega)
  unfold Function.placeOne
  simp only
  generalize f.settle sharing objects o (lastEnd objects + 1) (alignTo LeftZone o.align) = offset at *
  have member (p : FrameObject → Prop) (old : ∀ o ∈ objects, p o)
      (new : p { o with offset := offset }) :
      ∀ o' ∈ objects ++ [{ o with offset := offset }], p o' := by
    intro o' mem
    rcases List.mem_append.mp mem with mem | mem
    · exact old o' mem
    · obtain rfl := List.mem_singleton.mp mem
      exact new
  constructor
  case zone => exact member _ laid.zone (start_above.trans above)
  case aligned => exact member _ laid.aligned aligned
  case within =>
    refine member _ ?_ (Nat.le_max_right _ _)
    intro o' mem
    exact (laid.within o' mem).trans (Nat.le_max_left _ _)
  case whole => exact dvd_max laid.whole (Nat.dvd_add aligned (dvd_paddedSize _))
  case left_zone => exact laid.left_zone.trans (Nat.le_max_left _ _)
  case apart =>
    refine List.pairwise_append.mpr ⟨laid.apart, List.pairwise_singleton _ _, ?_⟩
    intro other mem last in_last live
    obtain rfl := List.mem_singleton.mp in_last
    exact settled other mem live

theorem place_laid (objects : List FrameObject) :
    f.Laid sharing (f.place sharing objects).1 (f.place sharing objects).2 := by
  have fold (frame : List FrameObject × Nat) (laid : f.Laid sharing frame.1 frame.2) :
      f.Laid sharing (objects.foldl (f.placeOne sharing) frame).1
        (objects.foldl (f.placeOne sharing) frame).2 := by
    induction objects generalizing frame with
    | nil => exact laid
    | cons o objects ih => exact ih _ (laid.placeOne o)
  refine fold ([], LeftZone) ⟨?_, ?_, ?_, by decide, Nat.le_refl _, .nil⟩
  all_goals
    intro o mem
    cases mem

/-! ## The layout -/

/-- What placing leaves of an object. -/
def identity (o : FrameObject) : Nat × Nat × UInt8 := (o.alloca, o.size, o.color)

theorem place_identity (objects : List FrameObject) :
    (f.place sharing objects).1.map identity = objects.map identity := by
  have fold (frame : List FrameObject × Nat) :
      (objects.foldl (f.placeOne sharing) frame).1.map identity =
        frame.1.map identity ++ objects.map identity := by
    induction objects generalizing frame with
    | nil => simp
    | cons o objects ih =>
      rw [List.foldl_cons, ih]
      simp [placeOne, identity]
  exact fold ([], LeftZone)

/-- The names and sizes of the objects, and that each has a color. -/
structure Named (f : Function P) (objects : List FrameObject) : Prop where
  distinct : (objects.map FrameObject.alloca).Nodup
  some_size : ∀ o ∈ objects, 0 < o.size

theorem filterMap_sublist (allocas : List Alloca) (g : Alloca → Option FrameObject)
    (named : ∀ a o, g a = some o → o.alloca = a.address) :
    ((allocas.filterMap g).map FrameObject.alloca).Sublist (allocas.map Alloca.address) := by
  induction allocas with
  | nil => exact .slnil
  | cons a allocas ih =>
    cases kept : g a with
    | none =>
      rw [List.filterMap_cons_none kept]
      exact ih.cons _
    | some o =>
      rw [List.filterMap_cons_some kept, List.map_cons, List.map_cons, named a o kept]
      exact ih.cons_cons _

theorem objects_named : f.Named f.objects := by
  unfold objects
  constructor
  · refine ((List.perm_insertionSort _ _).map FrameObject.alloca).nodup_iff.mpr ?_
    refine (filterMap_sublist f.allocas _ ?_).nodup f.distinct
    intro a o kept
    split at kept
    · split at kept
      · cases kept
      · obtain rfl := Option.some.inj kept
        rfl
    · cases kept
  · intro o mem
    obtain ⟨a, -, kept⟩ := List.mem_filterMap.mp ((List.mem_insertionSort _).mp mem)
    split at kept
    · split at kept
      · cases kept
      · obtain rfl := Option.some.inj kept
        exact Nat.lt_of_lt_of_le Nat.one_pos (Nat.le_max_right _ _)
    · cases kept

theorem Named.congr {objects objects' : List FrameObject} (named : f.Named objects)
    (same : objects'.map (fun o => (o.alloca, o.size)) = objects.map fun o => (o.alloca, o.size)) :
    f.Named objects' := by
  constructor
  · have names := congrArg (List.map Prod.fst) same
    rw [List.map_map, List.map_map] at names
    have : objects'.map FrameObject.alloca = objects.map FrameObject.alloca := names
    rw [this]
    exact named.distinct
  · intro o mem
    have size : (o.alloca, o.size) ∈ objects.map fun o => (o.alloca, o.size) := by
      rw [← same]
      exact List.mem_map_of_mem mem
    obtain ⟨o', mem', eq⟩ := List.mem_map.mp size
    obtain ⟨-, eq⟩ := Prod.mk.inj eq
    rw [← eq]
    exact named.some_size o' mem'

theorem colored_isColor {objects : List FrameObject} {o : FrameObject} (mem : o ∈ f.colored objects) :
    IsColor o.color := by
  obtain ⟨i, -, rfl⟩ := List.mem_mapIdx.mp mem
  exact isColor_color _

theorem colored_map (objects : List FrameObject) {α : Type} (g : FrameObject → α)
    (blind : ∀ o c, g { o with color := c } = g o) :
    (f.colored objects).map g = objects.map g := by
  unfold colored
  refine List.ext_getElem (by simp) ?_
  intro i _ _
  simp [blind]

/-- Coloring moves nothing. -/
theorem Laid.colored {objects : List FrameObject} {size : Nat}
    (laid : f.Laid sharing objects size) : f.Laid sharing (f.colored objects) size := by
  have back {o : FrameObject} (mem : o ∈ f.colored objects) :
      ∃ o' ∈ objects, o'.offset = o.offset ∧ o'.size = o.size := by
    have same := f.colored_map objects (fun o => (o.offset, o.size)) fun _ _ => rfl
    have key : (o.offset, o.size) ∈ objects.map fun o => (o.offset, o.size) := by
      rw [← same]
      exact List.mem_map_of_mem mem
    obtain ⟨o', mem', eq⟩ := List.mem_map.mp key
    exact ⟨o', mem', (Prod.mk.inj eq).1, (Prod.mk.inj eq).2⟩
  constructor
  case zone =>
    intro o mem
    obtain ⟨o', mem', eq, -⟩ := back mem
    rw [← eq]
    exact laid.zone o' mem'
  case aligned =>
    intro o mem
    obtain ⟨o', mem', eq, -⟩ := back mem
    rw [← eq]
    exact laid.aligned o' mem'
  case within =>
    intro o mem
    obtain ⟨o', mem', eq, eq'⟩ := back mem
    unfold FrameObject.extentEnd
    rw [← eq, ← eq']
    exact laid.within o' mem'
  case whole => exact laid.whole
  case left_zone => exact laid.left_zone
  case apart =>
    unfold Function.colored
    refine List.pairwise_iff_getElem.mpr ?_
    intro i j i_lt j_lt lt
    simp only [List.length_mapIdx] at i_lt j_lt
    simp only [List.getElem_mapIdx]
    exact List.pairwise_iff_getElem.mp laid.apart i j i_lt j_lt lt

theorem layout_laid : f.Laid f.sharing f.layout.1 f.layout.2 := by
  unfold layout
  cases shared : f.sharing with
  | true =>
    simp only [if_true]
    exact place_laid _
  | false =>
    simp only [Bool.false_eq_true, if_false]
    exact (place_laid _).colored

theorem layout_named : f.Named f.layout.1 := by
  have first : f.Named (f.place false f.objects).1 := by
    refine objects_named.congr ?_
    have same := congrArg (List.map fun k : Nat × Nat × UInt8 => (k.1, k.2.1))
      (@place_identity P _ f false f.objects)
    rw [List.map_map, List.map_map] at same
    exact same
  have recolored : f.Named (f.colored (f.place false f.objects).1) :=
    first.congr (f.colored_map _ _ fun _ _ => rfl)
  unfold layout
  cases f.sharing with
  | true =>
    simp only [if_true]
    refine recolored.congr ?_
    have same := congrArg (List.map fun k : Nat × Nat × UInt8 => (k.1, k.2.1))
      (@place_identity P _ f true (f.colored (f.place false f.objects).1))
    rw [List.map_map, List.map_map] at same
    exact same
  | false => exact recolored

theorem layout_isColor {o : FrameObject} (mem : o ∈ f.layout.1) : IsColor o.color := by
  unfold layout at mem
  cases shared : f.sharing with
  | true =>
    rw [shared] at mem
    have key : identity o ∈ (f.colored (f.place false f.objects).1).map identity := by
      rw [← @place_identity P _ f true]
      exact List.mem_map_of_mem mem
    obtain ⟨o', mem', eq⟩ := List.mem_map.mp key
    have same : o'.color = o.color := congrArg (fun k => k.2.2) eq
    rw [← same]
    exact colored_isColor mem'
  | false =>
    rw [shared] at mem
    exact colored_isColor mem

/-! ## The shadow at entry -/

/-- Two granules on the same side of each cut. -/
def SameSide (cuts : List Nat) (g g' : Nat) : Prop := ∀ t ∈ cuts, t ≤ g ↔ t ≤ g'

/-- Between two cuts the value at entry does not change. -/
theorem entryValue_congr {objects : List FrameObject} {g g' : Nat}
    (zone : LeftZone / 16 ≤ g ↔ LeftZone / 16 ≤ g')
    (last : granules (objectsEnd objects) ≤ g ↔ granules (objectsEnd objects) ≤ g')
    (same : ∀ o ∈ objects, SameSide (cutsOf o) g g') :
    f.entryValue objects g = f.entryValue objects g' := by
  have left : g < LeftZone / 16 ↔ g' < LeftZone / 16 := by
    rw [← Nat.not_le, ← Nat.not_le, zone]
  have cover (value : UInt8) : f.coverValue objects g value = f.coverValue objects g' value := by
    clear last
    unfold coverValue
    induction objects generalizing value with
    | nil => rfl
    | cons o objects ih =>
      have here := same o List.mem_cons_self
      have first := here (o.offset / 16) (by simp [cutsOf])
      have ends := here (o.offset / 16 + granules o.size) (by simp [cutsOf])
      have wholes := here (o.offset / 16 + o.size / 16) (by simp [cutsOf])
      have covers : Covers o g ↔ Covers o g' := by
        unfold Covers
        rw [first, ← Nat.not_le, ends, Nat.not_le]
      have owns (covered : Covers o g) : own o g = own o g' := by
        have covered' := covers.mp covered
        unfold Covers at covered covered'
        have whole : g - o.offset / 16 < o.size / 16 ↔ g' - o.offset / 16 < o.size / 16 := by
          omega
        unfold own
        simp only [whole]
      rw [List.foldl_cons, List.foldl_cons]
      rw [← ih (fun o mem => same o (List.mem_cons_of_mem _ mem))]
      congr 1
      by_cases covered : Covers o g
      · rw [if_pos covered, if_pos (covers.mp covered), owns covered]
      · rw [if_neg covered, if_neg (covers.not.mp covered)]
  unfold entryValue
  simp only [left, last, cover]

theorem mem_cuts {objects : List FrameObject} {size t : Nat} :
    t ∈ cuts objects size ↔
      t = 0 ∨ t = LeftZone / 16 ∨ t = granules (objectsEnd objects) ∨ t = size / 16 ∨
        ∃ o ∈ objects, t ∈ cutsOf o := by
  unfold cuts
  simp only [List.mem_dedup, List.mem_insertionSort, List.mem_append, List.mem_cons,
    List.not_mem_nil, or_false, List.mem_flatMap, or_assoc]

theorem cuts_sorted (objects : List FrameObject) (size : Nat) :
    (cuts objects size).Pairwise (· < ·) := by
  unfold cuts
  have sorted := (List.pairwise_insertionSort (· ≤ ·) ([0, LeftZone / 16,
    granules (objectsEnd objects), size / 16] ++ objects.flatMap cutsOf)).sublist
      (List.dedup_sublist _)
  refine (sorted.and (List.nodup_dedup _)).imp ?_
  rintro a b ⟨le, ne⟩
  exact Nat.lt_of_le_of_ne le ne

theorem entryValue_of_cuts {objects : List FrameObject} {size g g' : Nat}
    (same : SameSide (cuts objects size) g g') :
    f.entryValue objects g = f.entryValue objects g' := by
  refine entryValue_congr ?_ ?_ ?_
  · exact same _ (mem_cuts.mpr (.inr (.inl rfl)))
  · exact same _ (mem_cuts.mpr (.inr (.inr (.inl rfl))))
  · intro o mem t cut
    exact same t (mem_cuts.mpr (.inr (.inr (.inr (.inr ⟨o, mem, cut⟩)))))

/-- The runs between the cuts from `g` on. -/
theorem expand_entryRuns {objects : List FrameObject} {size frameSize g : Nat} {rest : List Nat}
    {runs : List ShadowRun} (sorted : (g :: rest).Pairwise (· < ·)) (ends : size ∈ g :: rest ∨ size ≤ g)
    (all : ∀ t ∈ cuts objects frameSize, t ∈ g :: rest ∨ t ≤ g) :
    expand (f.entryRuns objects size (g :: rest) runs) =
      expand runs ++ (List.range' g (size - g)).map (f.entryValue objects) := by
  induction rest generalizing g runs with
  | nil =>
    have none : size - g = 0 := by
      rcases ends with mem | le
      · obtain rfl := List.mem_singleton.mp mem
        exact Nat.sub_self _
      · exact Nat.sub_eq_zero_of_le le
    simp only [entryRuns, none, List.range'_zero, List.map_nil, List.append_nil]
  | cons g' rest ih =>
    obtain ⟨least, sorted⟩ := List.pairwise_cons.mp sorted
    have lt : g < g' := least g' List.mem_cons_self
    simp only [entryRuns]
    split
    next below =>
      have ends : size ∈ g' :: rest ∨ size ≤ g' := by
        rcases ends with mem | le
        · rcases List.mem_cons.mp mem with rfl | mem
          · exact absurd below (Nat.lt_irrefl _)
          · exact .inl mem
        · exact absurd below (Nat.not_lt.mpr le)
      have all' : ∀ t ∈ cuts objects frameSize, t ∈ g' :: rest ∨ t ≤ g' := by
        intro t cut
        rcases all t cut with mem | le
        · rcases List.mem_cons.mp mem with rfl | mem
          · exact .inr (Nat.le_of_lt lt)
          · exact .inl mem
        · exact .inr (le.trans (Nat.le_of_lt lt))
      -- No cut lies between `g` and `g'`.
      have same (j : Nat) (above : g ≤ j) (before : j < g') :
          f.entryValue objects g = f.entryValue objects j := by
        refine @entryValue_of_cuts P _ f objects frameSize g j ?_
        intro t cut
        rcases all t cut with mem | le
        · rcases List.mem_cons.mp mem with rfl | mem
          · exact iff_of_true (Nat.le_refl _) above
          · have from_next : g' ≤ t := by
              rcases List.mem_cons.mp mem with rfl | mem
              · exact Nat.le_refl _
              · exact Nat.le_of_lt ((List.pairwise_cons.mp sorted).1 t mem)
            refine iff_of_false ?_ ?_ <;> omega
        · exact iff_of_true le (le.trans above)
      have stretch : List.replicate (min g' size - g) (f.entryValue objects g) =
          (List.range' g (min g' size - g)).map (f.entryValue objects) := by
        refine List.ext_getElem (by simp) ?_
        intro i i_lt _
        simp only [List.length_replicate] at i_lt
        simp only [List.getElem_replicate, List.getElem_map, List.getElem_range', Nat.one_mul]
        exact same (g + i) (Nat.le_add_right _ _) (by omega)
      have parts : List.range' g (size - g) =
          List.range' g (min g' size - g) ++ List.range' g' (size - g') := by
        by_cases last : size ≤ g'
        · rw [Nat.min_eq_right last, Nat.sub_eq_zero_of_le last]
          exact (List.append_nil _).symm
        · have inside : g' ≤ size := by omega
          have lengths : size - g = (g' - g) + (size - g') := by omega
          have start : g + (g' - g) = g' := by omega
          rw [Nat.min_eq_left inside, lengths, ← List.range'_append_1, start]
      rw [ih sorted ends all', expand_appendRun, stretch, parts, List.map_append, List.append_assoc]
    next above =>
      have none : size - g = 0 := Nat.sub_eq_zero_of_le (Nat.not_lt.mp above)
      simp only [none, List.range'_zero, List.map_nil, List.append_nil]

/-- The runs between the sorted cuts are the values of the frame's granules. -/
theorem expand_entryRuns_cuts (objects : List FrameObject) (frameSize : Nat) :
    expand (f.entryRuns objects (frameSize / 16) (cuts objects frameSize) []) =
      (List.range (frameSize / 16)).map (f.entryValue objects) := by
  have zero : 0 ∈ cuts objects frameSize := mem_cuts.mpr (.inl rfl)
  have size : frameSize / 16 ∈ cuts objects frameSize :=
    mem_cuts.mpr (.inr (.inr (.inr (.inl rfl))))
  have sorted := cuts_sorted objects frameSize
  have all : ∀ t ∈ cuts objects frameSize, t ∈ cuts objects frameSize := fun _ mem => mem
  generalize found : cuts objects frameSize = points at zero size sorted
  cases points with
  | nil => cases zero
  | cons g rest =>
      have first : g = 0 := by
        cases zero with
        | head => rfl
        | tail _ later => exact absurd ((List.pairwise_cons.mp sorted).1 0 later) (Nat.not_lt_zero _)
      rw [found] at all
      rw [expand_entryRuns sorted (.inl size) fun t cut => .inl (found ▸ cut), first, Nat.sub_zero,
        expand_nil, List.nil_append, List.range_eq_range']

/-- The frame's shadow at entry, granule by granule. -/
theorem expand_entryShadow :
    expand f.entryShadow = (List.range (f.layout.2 / 16)).map (f.entryValue f.layout.1) :=
  expand_entryRuns_cuts _ _

/-! ## What the markers write -/

theorem expand_objectRuns (size : Nat) (color : UInt8) :
    expand (objectRuns size color) =
      (List.range (granules size)).map fun k =>
        if k < size / 16 then color else partialOf color (size % 16) := by
  have wholes : List.replicate (size / 16) color =
      (List.range (size / 16)).map fun k =>
        if k < size / 16 then color else partialOf color (size % 16) := by
    refine List.ext_getElem (by simp) ?_
    intro k k_lt _
    simp only [List.length_replicate] at k_lt
    simp only [List.getElem_replicate, List.getElem_map, List.getElem_range, if_pos k_lt]
  unfold objectRuns granules
  simp only
  split
  next rest =>
    have last : (size + 15) / 16 = size / 16 + 1 := by omega
    rw [expand_appendRun, expand_appendRun, expand_nil, List.nil_append, last, List.range_succ,
      List.map_append, ← wholes]
    simp
  next rest =>
    have last : (size + 15) / 16 = size / 16 := by omega
    rw [expand_appendRun, expand_nil, List.nil_append, last, wholes]

/-- The granules after an object up to the end of its extent. -/
def InRedzone (o : FrameObject) (g : Nat) : Prop :=
  o.offset / 16 + granules o.size ≤ g ∧ g < o.extentEnd / 16

instance (o : FrameObject) (g : Nat) : Decidable (InRedzone o g) :=
  inferInstanceAs (Decidable (_ ∧ _))

theorem granules_le (size : Nat) : granules size ≤ paddedSize size / 16 := by
  have := lt_paddedSize size
  unfold granules
  omega

theorem length_liveRuns_le (o : FrameObject) :
    (expand (f.liveRuns o)).length ≤ paddedSize o.size / 16 := by
  have le := granules_le o.size
  unfold liveRuns
  simp only
  split
  · rw [expand_appendRun, expand_objectRuns, List.length_append, List.length_map,
      List.length_range, List.length_replicate]
    omega
  · rw [expand_objectRuns, List.length_map, List.length_range]
    exact le

theorem length_deadRuns_le (o : FrameObject) :
    (expand (deadRuns o)).length ≤ paddedSize o.size / 16 := by
  unfold deadRuns
  rw [expand_appendRun, expand_nil, List.nil_append, List.length_replicate]
  exact granules_le o.size

/-- What a start writes over granule `g`. -/
theorem getElem?_liveRuns {o : FrameObject} {g : Nat} (aligned : 32 ∣ o.offset)
    (above : o.offset / 16 ≤ g) (old : UInt8) :
    (expand (f.liveRuns o))[g - o.offset / 16]?.getD old =
      if Covers o g then own o g
      else if sharesRedzone f.layout.1 o = true ∧ InRedzone o g then ShadowValue.stackMid
      else old := by
  have le := granules_le o.size
  have extent : o.extentEnd / 16 = o.offset / 16 + paddedSize o.size / 16 := by
    have := dvd_paddedSize o.size
    unfold FrameObject.extentEnd
    omega
  have object : (expand (objectRuns o.size o.color))[g - o.offset / 16]? =
      if Covers o g then some (own o g) else none := by
    rw [expand_objectRuns, List.getElem?_map]
    by_cases covered : Covers o g
    · have within : g - o.offset / 16 < granules o.size := by
        unfold Covers at covered
        omega
      rw [if_pos covered, List.getElem?_range within]
      rfl
    · have past : ¬ g - o.offset / 16 < granules o.size := by
        unfold Covers at covered
        omega
      rw [if_neg covered, List.getElem?_eq_none (by rw [List.length_range]; omega)]
      rfl
  unfold liveRuns
  simp only
  by_cases shares : sharesRedzone f.layout.1 o = true
  · rw [if_pos shares, expand_appendRun]
    by_cases covered : Covers o g
    · have within : g - o.offset / 16 < (expand (objectRuns o.size o.color)).length := by
        rw [expand_objectRuns, List.length_map, List.length_range]
        unfold Covers at covered
        omega
      rw [List.getElem?_append_left within, object, if_pos covered, if_pos covered]
      rfl
    · have past : (expand (objectRuns o.size o.color)).length ≤ g - o.offset / 16 := by
        rw [expand_objectRuns, List.length_map, List.length_range]
        unfold Covers at covered
        omega
      rw [List.getElem?_append_right past, if_neg covered, expand_objectRuns, List.length_map,
        List.length_range, List.getElem?_replicate]
      have redzone : g - o.offset / 16 - granules o.size <
          paddedSize o.size / 16 - granules o.size ↔ InRedzone o g := by
        unfold Covers at covered
        unfold InRedzone
        rw [extent]
        omega
      by_cases zone : InRedzone o g
      · simp only [redzone, zone, shares, and_self, if_true]
        rfl
      · simp only [redzone, zone, and_false, if_false]
        rfl
  · rw [if_neg shares, object]
    by_cases covered : Covers o g
    · simp only [covered, if_true]
      rfl
    · simp only [covered, shares, false_and, Bool.false_eq_true, if_false]
      rfl

/-- What an end writes over granule `g`. -/
theorem getElem?_deadRuns {o : FrameObject} {g : Nat} (above : o.offset / 16 ≤ g) (old : UInt8) :
    (expand (deadRuns o))[g - o.offset / 16]?.getD old =
      if Covers o g then ShadowValue.stackScope else old := by
  unfold deadRuns
  rw [expand_appendRun, expand_nil, List.nil_append, List.getElem?_replicate]
  by_cases covered : Covers o g
  · rw [if_pos covered]
    unfold Covers at covered
    rw [if_pos (by omega)]
    rfl
  · rw [if_neg covered]
    unfold Covers at covered
    rw [if_neg (by omega)]
    rfl

end Function

/-- The function's frame at an address: aligned, on one stack, inside the
shadow's window. -/
structure Function.Placed {P : Type} [DecidableEq P] (f : Function P) (ctx : Context) (s : Shadow)
    (frame : Nat) : Prop where
  some_object : f.objects ≠ []
  aligned : f.alignment ∣ frame
  ready : s.Ready
  one_stack : OneStack ctx frame (frame + f.layout.2)
  inside : frame + f.layout.2 ≤ 2 ^ s.bits

namespace Function

variable {P : Type} [DecidableEq P] {f : Function P} {ctx : Context} {little : Bool} {s : Shadow}
  {frame : Nat}

theorem dvd_foldl_max {logs : List Nat} {first : Nat} (dvd : 32 ∣ first) (positive : 0 < first) :
    32 ∣ (logs.map fun k => 2 ^ k).foldl max first := by
  induction logs generalizing first with
  | nil => exact dvd
  | cons k logs ih =>
    rw [List.map_cons, List.foldl_cons]
    refine ih ?_ (positive.trans_le (Nat.le_max_left _ _))
    by_cases small : k < 5
    · have pow : 2 ^ k ≤ 2 ^ 5 := Nat.pow_le_pow_right (by decide) (Nat.le_of_lt small)
      have le : 32 ≤ first := Nat.le_of_dvd positive dvd
      rw [Nat.max_eq_left (pow.trans le)]
      exact dvd
    · obtain ⟨more, eq⟩ := Nat.exists_eq_add_of_le (Nat.not_lt.mp small)
      refine dvd_max dvd ?_
      rw [eq, Nat.pow_add]
      exact Nat.dvd_mul_right _ _

theorem Placed.dvd_frame (placed : f.Placed ctx s frame) : 32 ∣ frame := by
  refine Nat.dvd_trans ?_ placed.aligned
  have := @dvd_foldl_max (f.objects.map FrameObject.alignLog) FrameAlign
    (Nat.dvd_refl 32) (by decide)
  rw [List.map_map] at this
  exact this

/-- A write over an object of the frame. -/
theorem Placed.writeShadow (placed : f.Placed ctx s frame) {o : FrameObject}
    (mem : o ∈ f.layout.1) {runs : List ShadowRun}
    (short : (expand runs).length ≤ paddedSize o.size / 16) :
    Pass.writeShadow ctx little (frame + o.offset) s runs =
      s.store (frame / 16 + o.offset / 16) (expand runs) := by
  have frame_aligned := placed.dvd_frame
  have aligned := layout_laid.aligned o mem
  have within := layout_laid.within o mem
  have inside := placed.inside
  have padded := dvd_paddedSize o.size
  have larger := lt_paddedSize o.size
  unfold FrameObject.extentEnd at within
  have start : (frame + o.offset) / 16 = frame / 16 + o.offset / 16 := by omega
  rw [writeShadow_eq placed.ready (by omega) (placed.one_stack.mono (by omega) (by omega))
    (by omega) (by omega), start]

theorem find?_layout {o : FrameObject} (mem : o ∈ f.layout.1) :
    f.layout.1.find? (fun other => other.alloca = o.alloca) = some o := by
  cases found : f.layout.1.find? (fun other => other.alloca = o.alloca) with
  | none =>
    have different := List.find?_eq_none.mp found o mem
    simp at different
  | some o' =>
    have same := List.find?_some found
    rw [List.inj_on_of_nodup_map layout_named.distinct (List.mem_of_find?_eq_some found) mem
      (of_decide_eq_true same)]

/-- A start writes its object, and its redzone where that is shared. -/
theorem Placed.mark_start (placed : f.Placed ctx s frame) {o : FrameObject}
    (mem : o ∈ f.layout.1) (g : Nat) :
    (f.mark ctx little frame s (some (.start o.alloca))).byte (frame / 16 + g) =
      if Covers o g then own o g
      else if sharesRedzone f.layout.1 o = true ∧ InRedzone o g then ShadowValue.stackMid
      else s.byte (frame / 16 + g) := by
  have aligned := layout_laid.aligned o mem
  simp only [mark, find?_layout mem]
  rw [placed.writeShadow mem (length_liveRuns_le o), Shadow.store_byte]
  by_cases above : o.offset / 16 ≤ g
  · have at' : frame / 16 + g - (frame / 16 + o.offset / 16) = g - o.offset / 16 := by omega
    rw [if_pos (by omega), at', getElem?_liveRuns aligned above]
  · have outside : ¬ Covers o g := fun covered => above covered.1
    have outside' : ¬ InRedzone o g := fun zone => above ((Nat.le_add_right _ _).trans zone.1)
    rw [if_neg (by omega), if_neg outside, if_neg fun both => outside' both.2]

/-- An end writes its object. -/
theorem Placed.mark_stop (placed : f.Placed ctx s frame) {o : FrameObject}
    (mem : o ∈ f.layout.1) (g : Nat) :
    (f.mark ctx little frame s (some (.stop o.alloca))).byte (frame / 16 + g) =
      if Covers o g then ShadowValue.stackScope else s.byte (frame / 16 + g) := by
  simp only [mark, find?_layout mem]
  rw [placed.writeShadow mem (length_deadRuns_le o), Shadow.store_byte]
  by_cases above : o.offset / 16 ≤ g
  · have at' : frame / 16 + g - (frame / 16 + o.offset / 16) = g - o.offset / 16 := by omega
    rw [if_pos (by omega), at', getElem?_deadRuns above]
  · have outside : ¬ Covers o g := fun covered => above covered.1
    rw [if_neg (by omega), if_neg outside]

theorem Placed.enter (placed : f.Placed ctx s frame) {g : Nat} (inside : g < f.layout.2 / 16) :
    (f.enter ctx little frame s).shadow.byte (frame / 16 + g) = f.entryValue f.layout.1 g := by
  have aligned := placed.dvd_frame
  have fits := placed.inside
  have zone : LeftZone ≤ f.layout.2 := layout_laid.left_zone
  have whole := layout_laid (f := f) |>.whole
  have length : (expand f.entryShadow).length = f.layout.2 / 16 := by
    rw [expand_entryShadow, List.length_map, List.length_range]
  have some_bytes : 0 < f.layout.2 := Nat.lt_of_lt_of_le (by decide) zone
  unfold Function.enter
  simp only
  rw [writeShadow_eq placed.ready (by omega) (placed.one_stack.mono (Nat.le_refl _) (by omega))
    (by omega) (by omega), Shadow.store_byte, if_pos (Nat.le_add_right _ _), Nat.add_sub_cancel_left,
    expand_entryShadow, List.getElem?_map, List.getElem?_range inside]
  rfl

/-! ## The invariant -/

/-- A value of the frame's shadow that is no object's. -/
def Poison (v : UInt8) : Prop :=
  v = ShadowValue.stackLeft ∨ v = ShadowValue.stackMid ∨ v = ShadowValue.stackRight ∨
    v = ShadowValue.stackScope

/-- Each granule of a local in scope has its value, and every other granule of
the frame is poison. -/
structure Shown (f : Function P) (frame : Nat) (r : Running P) : Prop where
  covered : ∀ o ∈ f.layout.1, r.scope o.alloca = true → ∀ g, Covers o g →
    r.shadow.byte (frame / 16 + g) = own o g
  poison : ∀ g < f.layout.2 / 16,
    (∀ o ∈ f.layout.1, r.scope o.alloca = true → ¬ Covers o g) →
      Poison (r.shadow.byte (frame / 16 + g))

/-- The locals in scope do not share bytes. -/
def ScopeApart (f : Function P) (scope : Nat → Bool) : Prop :=
  ∀ a ∈ f.layout.1, ∀ b ∈ f.layout.1, a.alloca ≠ b.alloca → scope a.alloca = true →
    scope b.alloca = true → a.Apart b

theorem apart_of_together {a b : FrameObject} (mem : a ∈ f.layout.1) (mem' : b ∈ f.layout.1)
    (differ : a.alloca ≠ b.alloca) (live : f.together f.sharing a b = true) : a.Apart b := by
  have symm : Std.Symm fun x y => f.together f.sharing x y = true → x.Apart y := by
    constructor
    intro x y apart live
    rw [together_comm] at live
    exact (apart live).symm
  exact (layout_laid (f := f)).apart.forall mem mem'
    (fun same => differ (congrArg FrameObject.alloca same)) live

/-- Locals in scope at one instruction are placed apart. -/
theorem scopeApart (contained : f.Contained) {p : P} {scope : Nat → Bool}
    (reach : f.Reach p scope) : f.ScopeApart scope := by
  intro a mem b mem' differ in_scope in_scope'
  refine apart_of_together mem mem' differ ?_
  unfold together
  by_cases first : f.starts a.alloca = []
  · simp [first]
  · by_cases second : f.starts b.alloca = []
    · simp [second]
    · have overlap : ¬ Disjoint (f.liveRange a.alloca) (f.liveRange b.alloca) := by
        rw [Finset.not_disjoint_iff]
        exact ⟨p, contained p scope _ reach first in_scope,
          contained p scope _ reach second in_scope'⟩
      simp [overlap]

/-- The granules of objects apart are distinct. -/
theorem not_covers_of_apart {a b : FrameObject} (apart : a.Apart b)
    (aligned : 32 ∣ a.offset) (aligned' : 32 ∣ b.offset) {g : Nat} (covered : Covers a g) :
    ¬ Covers b g ∧ ¬ InRedzone b g := by
  have larger := lt_paddedSize a.size
  have larger' := lt_paddedSize b.size
  unfold FrameObject.Apart FrameObject.extentEnd at apart
  unfold Covers granules at covered ⊢
  unfold InRedzone FrameObject.extentEnd granules
  omega

/-- The value at entry where a single object, in scope, covers the granule. -/
theorem coverValue_of_unique {objects : List FrameObject} {o : FrameObject} {g : Nat}
    (in_scope : f.starts o.alloca = []) (covered : Covers o g)
    (unique : ∀ o' ∈ objects, Covers o' g → o' = o) (value : UInt8)
    (seen : o ∈ objects ∨ value = own o g) : f.coverValue objects g value = own o g := by
  unfold coverValue
  induction objects generalizing value with
  | nil => exact seen.resolve_left (List.not_mem_nil)
  | cons o' objects ih =>
    have rest : ∀ o' ∈ objects, Covers o' g → o' = o :=
      fun o' mem => unique o' (List.mem_cons_of_mem _ mem)
    rw [List.foldl_cons]
    by_cases covers : Covers o' g
    · obtain rfl := unique o' List.mem_cons_self covers
      simp only [if_pos covers, in_scope, true_or, if_true]
      exact ih rest _ (.inr rfl)
    · rw [if_neg covers]
      refine ih rest value ?_
      rcases seen with mem | same
      · rcases List.mem_cons.mp mem with rfl | mem
        · exact absurd covered covers
        · exact .inl mem
      · exact .inr same

/-- The value at entry where no object in scope covers the granule. -/
theorem coverValue_poison {objects : List FrameObject} {g : Nat}
    (out : ∀ o ∈ objects, f.starts o.alloca = [] → ¬ Covers o g) {value : UInt8}
    (poison : Poison value) : Poison (f.coverValue objects g value) := by
  unfold coverValue
  induction objects generalizing value with
  | nil => exact poison
  | cons o objects ih =>
    have rest : ∀ o ∈ objects, f.starts o.alloca = [] → ¬ Covers o g :=
      fun o mem => out o (List.mem_cons_of_mem _ mem)
    rw [List.foldl_cons]
    refine ih rest ?_
    by_cases covers : Covers o g
    · have out_of_scope : f.starts o.alloca ≠ [] := fun none => out o List.mem_cons_self none covers
      simp only [if_pos covers, out_of_scope, false_or, if_false]
      split
      · exact .inr (.inr (.inr rfl))
      · exact poison
    · rw [if_neg covers]
      exact poison

theorem shown_enter (placed : f.Placed ctx s frame) :
    f.Shown frame (f.enter ctx little frame s) := by
  have laid := layout_laid (f := f)
  constructor
  · intro o mem in_scope g covered
    have none : f.starts o.alloca = [] := of_decide_eq_true in_scope
    have above := laid.zone o mem
    have within := laid.within o mem
    have larger := lt_paddedSize o.size
    have aligned := laid.aligned o mem
    have ends : o.offset + o.size ≤ objectsEnd f.layout.1 :=
      le_foldl_max.2 _ (List.mem_map_of_mem (f := fun o : FrameObject => o.offset + o.size) mem)
    have inside : g < f.layout.2 / 16 := by
      unfold Covers granules at covered
      unfold FrameObject.extentEnd at within
      omega
    have not_right : ¬ granules (objectsEnd f.layout.1) ≤ g := by
      unfold Covers granules at covered
      unfold granules
      omega
    have unique : ∀ o' ∈ f.layout.1, Covers o' g → o' = o := by
      intro o' mem' covered'
      by_contra differ
      have apart : o.Apart o' := by
        refine apart_of_together mem mem' ?_ ?_
        · intro same
          exact differ (List.inj_on_of_nodup_map layout_named.distinct mem' mem same.symm)
        · simp [together, none]
      exact (not_covers_of_apart apart aligned (laid.aligned o' mem') covered).1 covered'
    rw [placed.enter inside]
    unfold entryValue
    simp only [if_neg not_right]
    exact coverValue_of_unique none covered unique _ (.inl mem)
  · intro g inside out
    rw [placed.enter inside]
    unfold entryValue
    simp only
    split
    · exact .inr (.inr (.inl rfl))
    · refine coverValue_poison ?_ ?_
      · intro o mem none
        exact out o mem (decide_eq_true none)
      · split
        · exact .inl rfl
        · exact .inr (.inl rfl)

/-- The end of a local that is already out of scope shares no byte with a local
in scope. -/
def Quiet (f : Function P) (r : Running P) : Prop :=
  ∀ o ∈ f.layout.1, f.marker r.point = some (.stop o.alloca) → r.scope o.alloca = false →
    ∀ o' ∈ f.layout.1, r.scope o'.alloca = true →
      o.offset + o.size ≤ o'.offset ∨ o'.offset + o'.size ≤ o.offset

instance (r : Running P) : Decidable (f.Quiet r) :=
  inferInstanceAs (Decidable (∀ o ∈ f.layout.1, _ → _ → ∀ o' ∈ f.layout.1, _ → _))

/-- A start of a local whose bytes no other local in scope has. -/
theorem Shown.start (placed : f.Placed ctx s frame) {point q : P} {scope : Nat → Bool}
    (shown : f.Shown frame ⟨point, scope, s⟩) {o : FrameObject} (mem : o ∈ f.layout.1)
    (apart : f.ScopeApart (Function.update scope o.alloca true)) :
    f.Shown frame ⟨q, Function.update scope o.alloca true,
      f.mark ctx little frame s (some (.start o.alloca))⟩ := by
  have laid := layout_laid (f := f)
  have still {x : Nat} (in_scope : scope x = true) :
      Function.update scope o.alloca true x = true := by
    by_cases same : x = o.alloca
    · rw [same, Function.update_self]
    · rw [Function.update_of_ne same]
      exact in_scope
  constructor
  · intro o' mem' in_scope g covered
    rw [placed.mark_start mem]
    by_cases same : o'.alloca = o.alloca
    · obtain rfl := List.inj_on_of_nodup_map layout_named.distinct mem' mem same
      rw [if_pos covered]
    · have was : scope o'.alloca = true := by
        have := in_scope
        simp only [Function.update_of_ne same] at this
        exact this
      have away := not_covers_of_apart
        (apart o' mem' o mem same in_scope (Function.update_self _ _ _))
        (laid.aligned o' mem') (laid.aligned o mem) covered
      rw [if_neg away.1, if_neg fun both => away.2 both.2]
      exact shown.covered o' mem' was g covered
  · intro g inside out
    have not_covered := out o mem (Function.update_self _ _ _)
    rw [placed.mark_start mem, if_neg not_covered]
    split
    · exact .inr (.inl rfl)
    · exact shown.poison g inside fun o' mem' in_scope => out o' mem' (still in_scope)

/-- An end of a local that is in scope, or shares no byte with one that is. -/
theorem Shown.stop (placed : f.Placed ctx s frame) {point q : P} {scope : Nat → Bool}
    (shown : f.Shown frame ⟨point, scope, s⟩) {o : FrameObject} (mem : o ∈ f.layout.1)
    (apart : f.ScopeApart scope)
    (quiet : scope o.alloca = false → ∀ o' ∈ f.layout.1, scope o'.alloca = true →
      o.offset + o.size ≤ o'.offset ∨ o'.offset + o'.size ≤ o.offset) :
    f.Shown frame ⟨q, Function.update scope o.alloca false,
      f.mark ctx little frame s (some (.stop o.alloca))⟩ := by
  have laid := layout_laid (f := f)
  have was {x : Nat} (in_scope : Function.update scope o.alloca false x = true) :
      x ≠ o.alloca ∧ scope x = true := by
    by_cases same : x = o.alloca
    · rw [same, Function.update_self] at in_scope
      exact absurd in_scope Bool.false_ne_true
    · rw [Function.update_of_ne same] at in_scope
      exact ⟨same, in_scope⟩
  constructor
  · intro o' mem' in_scope g covered
    obtain ⟨differ, in_scope⟩ := was in_scope
    have away : ¬ Covers o g := by
      cases live : scope o.alloca with
      | true =>
        exact (not_covers_of_apart (apart o' mem' o mem differ in_scope live)
          (laid.aligned o' mem') (laid.aligned o mem) covered).1
      | false =>
        have bytes := quiet live o' mem' in_scope
        have aligned := laid.aligned o mem
        have aligned' := laid.aligned o' mem'
        unfold Covers granules at covered ⊢
        omega
    rw [placed.mark_stop mem, if_neg away]
    exact shown.covered o' mem' in_scope g covered
  · intro g inside out
    rw [placed.mark_stop mem]
    split
    next => exact .inr (.inr (.inr rfl))
    next not_covered =>
      refine shown.poison g inside ?_
      intro o' mem' in_scope covered
      by_cases same : o'.alloca = o.alloca
      · obtain rfl := List.inj_on_of_nodup_map layout_named.distinct mem' mem same
        exact not_covered covered
      · refine out o' mem' ?_ covered
        simp only [Function.update_of_ne same]
        exact in_scope

/-- A marker of no local of the frame. -/
theorem Shown.other {point q : P} {scope scope' : Nat → Bool} (shown : f.Shown frame ⟨point, scope, s⟩)
    (same : ∀ o ∈ f.layout.1, scope' o.alloca = scope o.alloca) : f.Shown frame ⟨q, scope', s⟩ := by
  constructor
  · intro o mem in_scope
    refine shown.covered o mem ?_
    simp only [same o mem] at in_scope
    exact in_scope
  · intro g inside out
    refine shown.poison g inside ?_
    intro o mem in_scope
    refine out o mem ?_
    simp only [same o mem]
    exact in_scope

theorem sameWindow_mark (placed : f.Placed ctx s frame) (marker : Option Marker) :
    Shadow.SameWindow s (f.mark ctx little frame s marker) := by
  have written {o : FrameObject} {runs : List ShadowRun} (mem : o ∈ f.layout.1)
      (short : (expand runs).length ≤ paddedSize o.size / 16) :
      Shadow.SameWindow s (Pass.writeShadow ctx little (frame + o.offset) s runs) := by
    rw [placed.writeShadow mem short]
    exact ⟨rfl, rfl⟩
  unfold mark
  split
  · split
    next found => exact written (List.mem_of_find?_eq_some found) (length_liveRuns_le _)
    next => exact .refl s
  · split
    next found => exact written (List.mem_of_find?_eq_some found) (length_deadRuns_le _)
    next => exact .refl s
  · exact .refl s

theorem Placed.congr {s' : Shadow} (placed : f.Placed ctx s frame) (same : Shadow.SameWindow s s') :
    f.Placed ctx s' frame := by
  refine ⟨placed.some_object, placed.aligned, same.ready placed.ready, placed.one_stack, ?_⟩
  rw [same.bits]
  exact placed.inside

/-- One instruction keeps what the shadow says. -/
theorem Shown.mark (placed : f.Placed ctx s frame) {point q : P} {scope : Nat → Bool}
    (shown : f.Shown frame ⟨point, scope, s⟩) (apart : f.ScopeApart scope)
    (apart' : f.ScopeApart (nextScope scope (f.marker point)))
    (quiet : f.Quiet ⟨point, scope, s⟩) :
    f.Shown frame ⟨q, nextScope scope (f.marker point),
      f.mark ctx little frame s (f.marker point)⟩ := by
  -- A marker that names no object of the layout changes no local's scope.
  have unlaid {x : Nat} (missing : f.layout.1.find? (fun o => o.alloca = x) = none) (v : Bool) :
      ∀ o ∈ f.layout.1, Function.update scope x v o.alloca = scope o.alloca := by
    intro o mem
    refine Function.update_of_ne ?_ _ _
    intro same
    have := List.find?_eq_none.mp missing o mem
    simp [same] at this
  cases marker : f.marker point with
  | none => exact shown.other fun _ _ => rfl
  | some m =>
    rw [marker] at apart'
    cases m with
    | start x =>
      cases found : f.layout.1.find? (fun o => o.alloca = x) with
      | none =>
        simp only [Function.mark, nextScope, found]
        exact shown.other (unlaid found true)
      | some o =>
        have named := List.find?_some found
        obtain rfl : o.alloca = x := of_decide_eq_true named
        exact shown.start placed (List.mem_of_find?_eq_some found) apart'
    | stop x =>
      cases found : f.layout.1.find? (fun o => o.alloca = x) with
      | none =>
        simp only [Function.mark, nextScope, found]
        exact shown.other (unlaid found false)
      | some o =>
        have named := List.find?_some found
        obtain rfl : o.alloca = x := of_decide_eq_true named
        have mem := List.mem_of_find?_eq_some found
        exact shown.stop placed mem apart (quiet o mem marker)

/-- What holds in every state of a run. -/
structure Good (f : Function P) (ctx : Context) (frame : Nat) (r : Running P) : Prop where
  reach : f.Reach r.point r.scope
  placed : f.Placed ctx r.shadow frame
  shown : f.Shown frame r

theorem good_enter (placed : f.Placed ctx s frame) :
    f.Good ctx frame (f.enter ctx little frame s) := by
  have same : Shadow.SameWindow s (f.enter ctx little frame s).shadow := by
    have fits := placed.inside
    have aligned := placed.dvd_frame
    have zone : LeftZone ≤ f.layout.2 := layout_laid.left_zone
    have some_bytes : 0 < f.layout.2 := Nat.lt_of_lt_of_le (by decide) zone
    have length : (expand f.entryShadow).length = f.layout.2 / 16 := by
      rw [expand_entryShadow, List.length_map, List.length_range]
    unfold Function.enter
    simp only
    rw [writeShadow_eq placed.ready (by omega)
      (placed.one_stack.mono (Nat.le_refl _) (by omega)) (by omega) (by omega)]
    exact ⟨rfl, rfl⟩
  exact ⟨.entry, placed.congr same, shown_enter placed⟩

theorem good_run (contained : f.Contained) (placed : f.Placed ctx s frame) {r : Running P}
    (run : Run (f.step ctx little frame) (fun r _ => f.Quiet r) (f.enter ctx little frame s) r) :
    f.Good ctx frame r := by
  refine run.invariant (good_enter placed) ?_
  intro r q r' good quiet taken
  unfold step at taken
  split at taken
  next follows =>
    obtain rfl := Option.some.inj taken
    have reach : f.Reach q (nextScope r.scope (f.marker r.point)) := .next good.reach follows
    refine ⟨reach, good.placed.congr (sameWindow_mark good.placed _), ?_⟩
    exact Shown.mark good.placed good.shown (scopeApart contained good.reach)
      (scopeApart contained reach) quiet
  next => cases taken

/-! ## Addressable bytes -/

/-- What the claim of a frame's shadow is: the bytes of a local in scope are
addressable, the bytes after it and the left zone are not, and a byte of a local
out of scope only where a local in scope has it. -/
structure Framed (f : Function P) (ctx : Context) (frame : Nat) (r : Running P) : Prop where
  in_scope : ∀ o ∈ f.layout.1, r.scope o.alloca = true → ∀ k < o.size,
    Addressable ctx r.shadow (frame + o.offset + k)
  padding : ∀ o ∈ f.layout.1, r.scope o.alloca = true → ∀ k, o.size ≤ k → k < paddedSize o.size →
    ¬ Addressable ctx r.shadow (frame + o.offset + k)
  left_zone : ∀ k < LeftZone, ¬ Addressable ctx r.shadow (frame + k)
  out_of_scope : ∀ o ∈ f.layout.1, r.scope o.alloca = false → ∀ k < o.size,
    Addressable ctx r.shadow (frame + o.offset + k) →
      ∃ o' ∈ f.layout.1, r.scope o'.alloca = true ∧ o'.offset ≤ o.offset + k ∧
        o.offset + k < o'.offset + o'.size

/-- The bytes of a partial granule. -/
theorem partialOf_value {c : UInt8} (colored : IsColor c) {k : Nat} (small : k < 16) :
    ¬ shadowFull (partialOf c k) ∧ ¬ shadowPoison (partialOf c k) ∧
      shadowBytes (partialOf c k) = k :=
  shadowPartialOf_value colored.2 small

theorem Poison.value {v : UInt8} (poison : Poison v) :
    ¬ shadowFull v ∧ shadowPoison v ∧ v ≠ ShadowValue.returned := by
  rcases poison with rfl | rfl | rfl | rfl <;> decide

/-- A byte of the frame in an object's granule, the object in scope. -/
theorem Good.addressable_of_covers {r : Running P} (good : f.Good ctx frame r) {o : FrameObject}
    (mem : o ∈ f.layout.1) (in_scope : r.scope o.alloca = true) {b : Nat}
    (covered : Covers o (b / 16)) :
    Addressable ctx r.shadow (frame + b) ↔ o.offset ≤ b ∧ b < o.offset + o.size := by
  have laid := layout_laid (f := f)
  have aligned := laid.aligned o mem
  have within := laid.within o mem
  have larger := lt_paddedSize o.size
  have inside := good.placed.inside
  have frame_aligned := good.placed.dvd_frame
  have shown := good.shown.covered o mem in_scope _ covered
  have granule : (frame + b) / 16 = frame / 16 + b / 16 := by omega
  have place : (frame + b) % 16 = b % 16 := by omega
  have colored := layout_isColor mem
  have below : frame + b < 2 ^ r.shadow.bits := by
    unfold Covers granules at covered
    unfold FrameObject.extentEnd at within
    omega
  unfold Covers granules at covered
  unfold own at shown
  by_cases whole : b / 16 - o.offset / 16 < o.size / 16
  · rw [if_pos whole] at shown
    have fresh : o.color ≠ ShadowValue.returned := by
      intro same
      have full := colored.1
      rw [same] at full
      exact absurd full (by decide)
    rw [addressable_iff good.placed.ready below (by rw [granule, shown]; exact fresh), granule,
      shown]
    refine iff_of_true (.inl colored.1) ?_
    omega
  · rw [if_neg whole] at shown
    obtain ⟨not_full, not_poison, bytes⟩ :=
      partialOf_value colored (Nat.mod_lt o.size (by decide : 0 < 16))
    have fresh : partialOf o.color (o.size % 16) ≠ ShadowValue.returned := by
      intro same
      rw [same] at not_poison
      exact not_poison (by decide)
    rw [addressable_iff good.placed.ready below (by rw [granule, shown]; exact fresh), granule,
      shown, place, bytes]
    simp only [not_full, not_poison, not_false_eq_true, true_and, false_or]
    omega

/-- A byte of the frame in no granule of an object in scope. -/
theorem Good.not_addressable {r : Running P} (good : f.Good ctx frame r) {b : Nat}
    (within : b < f.layout.2)
    (out : ∀ o ∈ f.layout.1, r.scope o.alloca = true → ¬ Covers o (b / 16)) :
    ¬ Addressable ctx r.shadow (frame + b) := by
  have inside := good.placed.inside
  have whole := layout_laid (f := f) |>.whole
  have frame_aligned := good.placed.dvd_frame
  have poison := (good.shown.poison (b / 16) (by omega) out).value
  have granule : (frame + b) / 16 = frame / 16 + b / 16 := by omega
  rw [addressable_iff good.placed.ready (by omega) (by rw [granule]; exact poison.2.2), granule]
  rintro (full | ⟨not_poison, -⟩)
  · exact poison.1 full
  · exact not_poison poison.2.1

theorem Good.framed (contained : f.Contained) {r : Running P} (good : f.Good ctx frame r) :
    f.Framed ctx frame r := by
  have laid := layout_laid (f := f)
  have apart := scopeApart contained good.reach
  constructor
  case in_scope =>
    intro o mem live k small
    have aligned := laid.aligned o mem
    rw [Nat.add_assoc, good.addressable_of_covers mem live]
    · omega
    · unfold Covers granules
      omega
  case padding =>
    intro o mem live k above below
    have aligned := laid.aligned o mem
    have within := laid.within o mem
    rw [Nat.add_assoc]
    by_cases covered : Covers o ((o.offset + k) / 16)
    · rw [good.addressable_of_covers mem live covered]
      omega
    · refine good.not_addressable ?_ ?_
      · unfold FrameObject.extentEnd at within
        omega
      · intro o' mem' live' covered'
        by_cases same : o'.alloca = o.alloca
        · obtain rfl := List.inj_on_of_nodup_map layout_named.distinct mem' mem same
          exact covered covered'
        · -- The byte lies in the redzone, so in no granule of another object.
          have away := not_covers_of_apart (apart o' mem' o mem same live' live)
            (laid.aligned o' mem') aligned covered'
          refine away.2 ?_
          unfold Covers granules at covered
          unfold InRedzone FrameObject.extentEnd granules
          have := dvd_paddedSize o.size
          omega
  case left_zone =>
    intro k small
    have zone := laid.left_zone
    refine good.not_addressable (by omega) ?_
    intro o mem _ covered
    have above := laid.zone o mem
    unfold LeftZone at small above
    unfold Covers at covered
    omega
  case out_of_scope =>
    intro o mem _ k small addressable
    have within := laid.within o mem
    have larger := lt_paddedSize o.size
    rw [Nat.add_assoc] at addressable
    by_contra none
    refine good.not_addressable ?_ ?_ addressable
    · unfold FrameObject.extentEnd at within
      omega
    · intro o' mem' live covered
      exact none ⟨o', mem', live, (good.addressable_of_covers mem' live covered).mp addressable⟩

/-- In a run that ends no dead local whose bytes a local in scope has, the
frame's shadow says at every instruction which locals are in scope. -/
theorem frame_shadow (contained : f.Contained) (placed : f.Placed ctx s frame) {r : Running P}
    (run : Run (f.step ctx little frame) (fun r _ => f.Quiet r) (f.enter ctx little frame s) r) :
    f.Framed ctx frame r :=
  (good_run contained placed run).framed contained

end Function

/-! ## Two locals that share bytes -/

/-- The second local's scope begins after the first's has ended; the first is
then ended again. -/
def endedTwice : List Marker := [.start 1, .stop 1, .start 2, .stop 1, .stop 2]

/-- A function whose instructions are those markers, in a row, of two locals of
256 bytes. -/
def twice : Function Nat where
  allocas := [⟨1, some 256, 4, false, false⟩, ⟨2, some 256, 4, false, false⟩]
  distinct := by decide
  entry := 0
  next p := if p < 5 then [p + 1] else []
  marker p := endedTwice[p]?
  starts x := (List.range 5).filter fun p => endedTwice[p]? = some (.start x)
  mem_starts p x := by
    simp only [List.mem_filter, List.mem_range, decide_eq_true_eq]
    refine ⟨And.right, fun found => ⟨?_, found⟩⟩
    exact (List.getElem?_eq_some_iff.mp found).1
  liveRange x := if x = 1 then {1} else if x = 2 then {3, 4} else ∅
  hash := 0

theorem reach_twice {p : Nat} {scope : Nat → Bool} (reach : twice.Reach p scope) :
    p ≤ 5 ∧ scope 1 = decide (p = 1) ∧ scope 2 = decide (p = 3 ∨ p = 4) := by
  induction reach with
  | entry => decide
  | @next p q scope _ follows ih =>
    obtain ⟨le, one, two⟩ := ih
    have below : p < 5 := by
      by_contra last
      simp [twice, last] at follows
    obtain rfl : q = p + 1 := by simpa [twice, below] using follows
    refine ⟨below, ?_⟩
    have points : p = 0 ∨ p = 1 ∨ p = 2 ∨ p = 3 ∨ p = 4 := by omega
    rcases points with rfl | rfl | rfl | rfl | rfl <;>
      simp_all [twice, endedTwice, Function.nextScope]

theorem contained_twice : twice.Contained := by
  intro p scope x reach started in_scope
  obtain ⟨-, one, two⟩ := reach_twice reach
  by_cases first : x = 1
  · subst first
    rw [one] at in_scope
    obtain rfl := of_decide_eq_true in_scope
    decide
  · by_cases second : x = 2
    · subst second
      rw [two] at in_scope
      rcases of_decide_eq_true in_scope with rfl | rfl <;> decide
    · refine absurd ?_ started
      simp only [twice, List.filter_eq_nil_iff, List.mem_range, decide_eq_true_eq]
      intro p below
      have points : p = 0 ∨ p = 1 ∨ p = 2 ∨ p = 3 ∨ p = 4 := by omega
      rcases points with rfl | rfl | rfl | rfl | rfl <;> simp [endedTwice, Ne.symm first, Ne.symm second]

/-- A shadow that says nothing, and a thread's stack. -/
def blankShadow : Shadow where
  bits := 47
  mask := 0x7ffffffffff
  byte _ := 0
  wf := .inr (by decide)

def someStack : Context where
  here := 0x8000
  stackBottom := 0x8000
  stackTop := 0x80000
  stackLostColors := false
  heapObjectAt _ := ⟨false, false, 0, 0⟩
  aarch64 := false

theorem placed_twice : twice.Placed someStack blankShadow 0x10000 := by
  refine ⟨?_, ?_, ?_, ?_, ?_⟩
  · decide +kernel
  · decide +kernel
  · decide +kernel
  · unfold OneStack
    decide +kernel
  · decide +kernel

/-- In the second local's scope, before the first is ended again. -/
theorem frame_shadow_twice : ∃ r : Running Nat, r.point = 3 ∧ twice.Framed someStack 0x10000 r := by
  obtain ⟨r, run, reached⟩ : ∃ r, Run (twice.step someStack true 0x10000)
      (fun r _ => twice.Quiet r) (twice.enter someStack true 0x10000 blankShadow) r ∧
        r.point = 3 :=
    Run.exists_exec [1, 2, 3] (by decide +kernel)
  exact ⟨r, reached, Function.frame_shadow contained_twice placed_twice run⟩

/-- After the second end of the first local, the second local's first byte is
not addressable though it is in scope. -/
theorem frame_shadow_ended :
    twice.Contained ∧ twice.Placed someStack blankShadow 0x10000 ∧
      ∃ r, Run (twice.step someStack true 0x10000) (fun _ _ => True)
        (twice.enter someStack true 0x10000 blankShadow) r ∧
          ¬ twice.Framed someStack 0x10000 r := by
  refine ⟨contained_twice, placed_twice, ?_⟩
  obtain ⟨r, run, seen⟩ : ∃ r, Run (twice.step someStack true 0x10000) (fun _ _ => True)
      (twice.enter someStack true 0x10000 blankShadow) r ∧
        (r.scope 2, decide (Addressable someStack r.shadow (0x10000 + 64))) = (true, false) :=
    Run.exists_exec [1, 2, 3, 4] (by decide +kernel)
  obtain ⟨in_scope, poisoned⟩ := Prod.mk.inj seen
  refine ⟨r, run, ?_⟩
  intro framed
  obtain ⟨o, mem, two, place, some_byte⟩ :
      ∃ o ∈ twice.layout.1, o.alloca = 2 ∧ o.offset = 64 ∧ 0 < o.size := by
    decide +kernel
  have addressable := framed.in_scope o mem (by rw [two]; exact in_scope) 0 some_byte
  rw [place] at addressable
  exact of_decide_eq_false poisoned addressable

end WeaveC.Pass
