import WeaveC.Alloc.Boundary
import WeaveC.Library.Accounts
import Mathlib.Tactic.Ring

/-!
# Slots by what their words say

How many bytes of slots are live, claimed by a release, or queued: a sum over
the slots of every region, weighed by their words.  Each critical section
changes such a sum by the slots that it moves, and by no other.
-/

namespace WeaveC.Alloc

open WeaveC.Library

variable {T : Type} {A : Arena} {R : Region} {place : Nat → Place T} {f : Weight} {slot : Nat}

/-- What a slot counts for, by its word; a slot that no block is in counts for
nothing. -/
structure Weight where
  live : Nat
  claimed : Nat
  queued : Nat

namespace Weight

def ofLive : Weight := ⟨1, 0, 0⟩

def ofQueued : Weight := ⟨0, 0, 1⟩

def of (f : Weight) (w : Word) : Nat :=
  match w.state with
  | .never | .free => 0
  | .live => f.live
  | .dead => if w.value = Word.cachedDead then f.claimed else f.queued

@[simp] theorem ofLive_live : ofLive.live = 1 := rfl
@[simp] theorem ofLive_claimed : ofLive.claimed = 0 := rfl
@[simp] theorem ofLive_queued : ofLive.queued = 0 := rfl
@[simp] theorem ofQueued_live : ofQueued.live = 0 := rfl
@[simp] theorem ofQueued_claimed : ofQueued.claimed = 0 := rfl
@[simp] theorem ofQueued_queued : ofQueued.queued = 1 := rfl
@[simp] theorem of_never (f : Weight) : f.of Word.never = 0 := rfl
@[simp] theorem of_free (f : Weight) (n : Nat) : f.of ⟨n, .free⟩ = 0 := rfl
@[simp] theorem of_live (f : Weight) (n : Nat) : f.of ⟨n, .live⟩ = f.live := rfl
@[simp] theorem of_claimed (f : Weight) : f.of Word.claimed = f.claimed := rfl

theorem of_queued (f : Weight) {w : Word} (queued : w.Queued) : f.of w = f.queued := by
  obtain ⟨dead, value⟩ := queued
  unfold of
  rw [dead]
  exact if_neg value

theorem of_handed (f : Weight) {w : Word} (handed : w.state = .free ∨ w.state = .never) :
    f.of w = 0 := by
  unfold of
  rcases handed with state | state <;> rw [state]

theorem of_state (f : Weight) {w : Word} (live : w.state = .live) : f.of w = f.live := by
  unfold of
  rw [live]

end Weight

/-! ## Regions -/

/-- The slots below `n`, weighed. -/
def tally (f : Weight) (words : Nat → Word) (n : Nat) : Nat := ∑ i ∈ Finset.range n, f.of (words i)

theorem tally_update (words : Nat → Word) {n : Nat} (below : slot < n) (w : Word) :
    tally f (Function.update words slot w) n + f.of (words slot) = tally f words n + f.of w := by
  have same : (fun i => f.of (Function.update words slot w i)) =
      Function.update (fun i => f.of (words i)) slot (f.of w) := by
    funext i
    by_cases self : i = slot
    · rw [self, Function.update_self, Function.update_self]
    · rw [Function.update_of_ne self, Function.update_of_ne self]
  unfold tally
  rw [same]
  exact sum_update_add (Finset.mem_range.mpr below) _

namespace Region

def tally (f : Weight) (R : Region) : Nat := Alloc.tally f R.words R.bump

theorem tally_setWord (below : slot < R.bump) (w : Word) :
    (R.setWord slot w).tally f + f.of (R.words slot) = R.tally f + f.of w :=
  tally_update R.words below w

/-- A slot that nothing was in goes to the free list. -/
theorem tally_giveBack (ok : RegionOk A R place) (handed : (place slot).Handed) :
    (R.giveBack slot).tally f = R.tally f := by
  have moved := R.tally_setWord (f := f) (ok.lt_bump (RegionOk.handed_ne handed).1)
    ⟨R.freeHead, .free⟩
  rw [f.of_handed ((Place.WordOk.handed handed).mp (ok.word slot)), f.of_free] at moved
  exact moved

/-- A claimed slot goes behind the queue. -/
theorem tally_enqueue (ok : RegionOk A R place) (claimed : (place slot).Claimed) :
    (R.enqueue slot).tally f + f.claimed = R.tally f + f.queued := by
  have below := ok.lt_bump (RegionOk.claimed_ne claimed).1
  have word := (Place.WordOk.claimed claimed).mp (ok.word slot)
  have first := R.tally_setWord (f := f) below ⟨0, .dead⟩
  rw [word, f.of_claimed, f.of_queued (w := ⟨0, .dead⟩) ⟨rfl, by simp [Word.cachedDead]⟩] at first
  by_cases none : R.deadTail = 0
  · rw [enqueue_first none]
    exact first
  · obtain ⟨q, queue, members⟩ := ok.queue
    have last := (members _).mp (queue.tail_mem none)
    have other : R.deadTail - 1 ≠ slot := by
      rintro rfl
      rw [last] at claimed
      exact claimed
    have queued : (R.words (R.deadTail - 1)).Queued := by
      have word := ok.word (R.deadTail - 1)
      rw [last] at word
      exact word
    have inside : R.deadTail - 1 < (R.setWord slot ⟨0, .dead⟩).bump :=
      ok.lt_bump (by simp [last])
    have tail := (R.setWord slot ⟨0, .dead⟩).tally_setWord (f := f) inside ⟨slot + 1, .dead⟩
    have linked : (⟨slot + 1, .dead⟩ : Word).Queued := by
      have bound := ok.bump
      have bound' := ok.capacity
      refine ⟨rfl, ?_⟩
      simp only [Word.cachedDead]
      omega
    rw [setWord_words, Function.update_of_ne other, f.of_queued queued, f.of_queued linked] at tail
    rw [enqueue_behind none, ← first]
    exact congrArg (· + f.claimed) (Nat.add_right_cancel tail)

/-- Slots that were never handed out count for nothing. -/
theorem tally_grown {R' : Region} (words : R'.words = R.words) (more : R.bump ≤ R'.bump)
    (fresh : ∀ i, R.bump ≤ i → R.words i = Word.never) : R'.tally f = R.tally f := by
  unfold tally Alloc.tally
  rw [words]
  refine (Finset.sum_subset (Finset.range_subset_range.mpr more) fun i _ out => ?_).symm
  rw [fresh i (by simpa using out)]
  exact f.of_never

theorem popRegion_bump (A : Arena) (grant : Nat → Bool) (region want : Nat) (R : Region)
    (shadow : Runtime.Shadow) : R.bump ≤ (popRegion A grant region want R shadow).2.1.bump := by
  induction want generalizing R shadow with
  | zero => exact Nat.le_refl _
  | succ want inductionHypothesis =>
      have pops := popSlot_pops A grant region R shadow
      unfold popRegion
      generalize popSlot A grant region R shadow = result at pops ⊢
      cases pops with
      | listed => exact inductionHypothesis { R with freeHead := (R.words (R.freeHead - 1)).value } _
      | nothing => exact Nat.le_refl _
      | fresh grant committed metaCommitted =>
          exact (Nat.le_succ _).trans (inductionHypothesis
            { R with committed, metaCommitted, bump := R.bump + 1 } _)

theorem tally_popRegion (ok : RegionOk A R place) (grant : Nat → Bool) (region want : Nat)
    (shadow : Runtime.Shadow) :
    (popRegion A grant region want R shadow).2.1.tally f = R.tally f := by
  refine tally_grown (popRegion_words A grant region want R shadow).1
    (popRegion_bump A grant region want R shadow) fun i above => ?_
  have word := ok.word i
  rw [(ok.fresh i).mpr above] at word
  exact word

/-! ## Recycling -/

theorem tally_recycleSlot {bump : Nat} {r : Recycling} (below : slot < bump)
    (small : bump < Word.cachedDead) (kept : r.keptHead ≤ bump) (recycle : Bool)
    (marks : Nat → Bool) :
    Alloc.tally f (recycleSlot recycle marks slot r).words bump +
          (recycleSlot recycle marks slot r).recycled * f.queued =
        Alloc.tally f r.words bump + r.recycled * f.queued ∧
      (recycleSlot recycle marks slot r).keptHead ≤ bump := by
  unfold recycleSlot
  dsimp only
  by_cases other : (r.words slot).state ≠ .dead ∨ (r.words slot).value = Word.cachedDead
  · rw [if_pos other]
    exact ⟨rfl, kept⟩
  · rw [if_neg other]
    obtain ⟨dead, value⟩ := not_or.mp other
    have queued : (r.words slot).Queued := ⟨not_not.mp dead, value⟩
    by_cases stays : recycle = false ∨ marks slot = true
    · rw [if_pos stays]
      have moved := tally_update (f := f) r.words below ⟨r.keptHead, .dead⟩
      have linked : (⟨r.keptHead, .dead⟩ : Word).Queued := ⟨rfl, by simp only; omega⟩
      rw [f.of_queued queued, f.of_queued linked] at moved
      refine ⟨?_, below⟩
      rw [Nat.add_right_cancel moved]
    · rw [if_neg stays]
      have moved := tally_update (f := f) r.words below ⟨r.freeHead, .free⟩
      rw [f.of_queued queued, f.of_free] at moved
      refine ⟨?_, kept⟩
      dsimp only
      rw [Nat.add_zero] at moved
      rw [Nat.succ_mul, ← moved]
      omega

theorem tally_recycleBelow {bump : Nat} {r : Recycling} (short : slot ≤ bump)
    (small : bump < Word.cachedDead) (kept : r.keptHead ≤ bump) (recycle : Bool)
    (marks : Nat → Bool) :
    Alloc.tally f (recycleBelow recycle marks slot r).words bump +
        (recycleBelow recycle marks slot r).recycled * f.queued =
      Alloc.tally f r.words bump + r.recycled * f.queued := by
  induction slot generalizing r with
  | zero => rfl
  | succ slot inductionHypothesis =>
      obtain ⟨same, kept'⟩ := tally_recycleSlot (f := f) short small kept recycle marks
      exact (inductionHypothesis (Nat.le_of_succ_le short) kept').trans same

/-- Recycling takes what it recycles out of the queue. -/
theorem tally_recycle (ok : RegionOk A R place) (recycle : Bool) :
    (R.recycle recycle).1.tally f + (R.recycle recycle).2 * f.queued = R.tally f := by
  have small : R.bump < Word.cachedDead := by
    have := ok.bump
    have := ok.capacity
    simp only [Word.cachedDead]
    omega
  unfold Region.recycle
  cases R.marks with
  | none => exact (congrArg _ (Nat.zero_mul _)).trans (Nat.add_zero _)
  | some marks =>
      dsimp only
      by_cases empty : R.deadHead = 0
      · rw [if_pos empty]
        exact (congrArg _ (Nat.zero_mul _)).trans (Nat.add_zero _)
      · rw [if_neg empty]
        have done := tally_recycleBelow (f := f) (r := ⟨R.words, R.freeHead, 0, R.deadTail, 0⟩)
          (Nat.le_refl R.bump) small (Nat.zero_le _) recycle marks
        rw [Nat.zero_mul, Nat.add_zero] at done
        exact done

end Region

/-! ## The table -/

/-- The bytes of the slots, weighed. -/
def Table.bytes (f : Weight) (t : Table) : Nat :=
  ∑ r ∈ Finset.range RegionCount, (t.region r).tally f * (t.region r).entry.size

section Table

variable {t t' : Table} {r : Nat} {x : Slot} {place : Slot → Place T} {R : Region}

theorem Table.bytes_congr (same : ∀ r, r < RegionCount →
    (t'.region r).tally f * (t'.region r).entry.size =
      (t.region r).tally f * (t.region r).entry.size) : t'.bytes f = t.bytes f :=
  Finset.sum_congr rfl fun r mem => same r (Finset.mem_range.mp mem)

theorem Table.bytes_setRegion (below : r < RegionCount) (entry : R.entry = (t.region r).entry) :
    (t.setRegion r R).bytes f + (t.region r).tally f * (t.region r).entry.size =
      t.bytes f + R.tally f * (t.region r).entry.size := by
  have same : (fun r' => ((t.setRegion r R).region r').tally f *
      ((t.setRegion r R).region r').entry.size) =
      Function.update (fun r' => (t.region r').tally f * (t.region r').entry.size) r
        (R.tally f * (t.region r).entry.size) := by
    funext r'
    unfold Table.setRegion
    dsimp only
    by_cases self : r' = r
    · rw [self, Function.update_self, Function.update_self, entry]
    · rw [Function.update_of_ne self, Function.update_of_ne self]
  unfold Table.bytes
  rw [same]
  exact sum_update_add (Finset.mem_range.mpr below) _

theorem Table.bytes_of_tally (below : r < RegionCount) (entry : R.entry = (t.region r).entry)
    (same : R.tally f = (t.region r).tally f) : (t.setRegion r R).bytes f = t.bytes f := by
  have moved := t.bytes_setRegion (f := f) below entry
  rw [same] at moved
  exact Nat.add_right_cancel moved

namespace TableOk

theorem region_lt (ok : TableOk A t place) (used : place x ≠ .fresh) : x.region < RegionCount :=
  (ok.used used).trans_le ok.count

/-- A slot's new word counts for what it says. -/
theorem bytes_setWord (ok : TableOk A t place) (used : place x ≠ .fresh) (w : Word) :
    (t.setWord x w).bytes f + f.of (t.word x) * t.slotBytes x =
      t.bytes f + f.of w * t.slotBytes x := by
  have region := t.bytes_setRegion (f := f)
    (R := (t.region x.region).setWord x.index w) (ok.region_lt used) rfl
  have slot := (t.region x.region).tally_setWord (f := f)
    ((ok.region x.region).lt_bump (s := x.index) used) w
  have scaled := congrArg (· * (t.region x.region).entry.size) slot
  simp only [Nat.add_mul] at scaled
  unfold Table.setWord Table.word Table.slotBytes
  omega

theorem bytes_giveBack (ok : TableOk A t place) (handed : (place x).Handed) :
    (t.setRegion x.region ((t.region x.region).giveBack x.index)).bytes f = t.bytes f :=
  Table.bytes_of_tally (ok.region_lt (RegionOk.handed_ne handed).1) rfl
    (Region.tally_giveBack (ok.region x.region) handed)

/-- A claimed slot is queued. -/
theorem bytes_enqueue (ok : TableOk A t place) (claimed : (place x).Claimed) :
    (t.setRegion x.region ((t.region x.region).enqueue x.index)).bytes f +
        f.claimed * t.slotBytes x =
      t.bytes f + f.queued * t.slotBytes x := by
  have region := t.bytes_setRegion (f := f) (R := (t.region x.region).enqueue x.index)
    (ok.region_lt (RegionOk.claimed_ne claimed).1) (Region.sameKind_enqueue _ _).entry
  have slot := (t.region x.region).tally_enqueue (f := f) (ok.region x.region) claimed
  have scaled := congrArg (· * (t.region x.region).entry.size) slot
  simp only [Nat.add_mul] at scaled
  unfold Table.slotBytes
  omega

theorem bytes_popRegion (ok : TableOk A t place) (u : T) (below : r < RegionCount)
    (grant : Nat → Bool) (want : Nat) (shadow : Runtime.Shadow) :
    (t.setRegion r (Alloc.popRegion A grant r want (t.region r) shadow).2.1).bytes f = t.bytes f :=
  Table.bytes_of_tally below
    (popRegion_spec (p := .taken u) trivial grant r want (ok.region r) shadow).kind.entry
    (Region.tally_popRegion (ok.region r) grant r want shadow)

/-- A spare has no slots yet. -/
theorem bytes_takeSpare (ok : TableOk A t place) {c : Nat} (made : c < A.classCount)
    (found : t.takeSpare c = some t') : t'.bytes f = t.bytes f := by
  refine Table.bytes_congr fun r _ => ?_
  have grows := (ok.takeSpare made found).2
  obtain ⟨entry, cls, next, eq⟩ := Table.takeSpare_region found r
  have tally : (t'.region r).tally f = (t.region r).tally f := by
    rw [eq]
    rfl
  rw [tally]
  by_cases used : r < t.regions
  · rw [grows.entry r used]
  · have bump := (ok.region r).bump
    rw [(ok.spare r (Nat.le_of_not_lt used)).1] at bump
    have empty : (t.region r).tally f = 0 := by
      unfold Region.tally
      rw [Nat.le_zero.mp bump]
      rfl
    rw [empty, Nat.zero_mul, Nat.zero_mul]

/-- A run of released slots of one class is queued. -/
theorem bytes_enqueueRun (ok : TableOk A t place) {slots : Nat → Entry} {i n high : Nat} {u : T}
    {c : Nat} (run : i + n ≤ high)
    (segment : Segment (fun i => (slots i).place) i high {x | place x = .released u c}) :
    (Thread.enqueueRun slots i n t).bytes f + f.claimed * (n * (A.entry c).size) =
      t.bytes f + f.queued * (n * (A.entry c).size) := by
  induction n generalizing i t place with
  | zero =>
      rw [Nat.zero_mul]
      rfl
  | succ n inductionHypothesis =>
      have here : place (slots i).place = .released u c := segment.mem (Nat.le_refl i) (by omega)
      have claimed : (place (slots i).place).Claimed := by
        rw [here]
        trivial
      have first := ok.bytes_enqueue (f := f) claimed
      have size : t.slotBytes (slots i).place = (A.entry c).size := by
        unfold Table.slotBytes
        rw [ok.entry _ (ok.used (by simp [here]))]
        exact congrArg (fun c => (A.entry c).size) (ok.cls _ u c (.inr here))
      rw [size] at first
      have segment' : Segment (fun i => (slots i).place) (i + 1) high
          {x | Function.update place (slots i).place .queued x = .released u c} := by
        have rest := segment.dropFirst (by omega)
        convert rest using 1
        ext x
        by_cases same : x = (slots i).place
        · simp [same]
        · simp [same]
      have rest := inductionHypothesis (ok.enqueue claimed) (by omega) segment'
      change (Thread.enqueueRun slots (i + 1) n (t.setRegion (slots i).place.region
        ((t.region (slots i).place.region).enqueue (slots i).place.index))).bytes f + _ = _
      rw [Nat.succ_mul, Nat.mul_add, Nat.mul_add]
      omega

/-- Marks say nothing of what is in a slot. -/
theorem bytes_sameSlots (same : t.SameSlots t') : t'.bytes f = t.bytes f := by
  refine Table.bytes_congr fun r _ => ?_
  obtain ⟨marks, eq⟩ := same.region r
  rw [eq]
  rfl

end TableOk

/-- The bytes of the slots that a sweep recycles. -/
def Heap.recycledBytes (h : Heap) (recycle : Bool) : Nat :=
  ∑ r ∈ Finset.range h.table.regions,
    (h.table.region r).entry.size * ((h.table.region r).recycle recycle).2

theorem TableOk.bytes_recycleRegions {h : Heap} (ok : TableOk A h.table place) (recycle : Bool) :
    (h.recycleRegions A recycle).table.bytes f + h.recycledBytes recycle * f.queued =
      h.table.bytes f := by
  have wide := ok.count
  have gone : h.recycledBytes recycle = ∑ r ∈ Finset.range RegionCount,
      if r < h.table.regions then
        (h.table.region r).entry.size * ((h.table.region r).recycle recycle).2
      else 0 := by
    unfold Heap.recycledBytes
    rw [← Finset.sum_filter]
    refine Finset.sum_congr ?_ fun _ _ => rfl
    ext r
    simp only [Finset.mem_range, Finset.mem_filter]
    omega
  rw [gone, Finset.sum_mul]
  unfold Table.bytes
  rw [← Finset.sum_add_distrib]
  refine Finset.sum_congr rfl fun r _ => ?_
  unfold Heap.recycleRegions
  dsimp only
  by_cases used : r < h.table.regions
  · rw [if_pos used, if_pos used, (Region.sameKind_recycle _ _).entry,
      ← Region.tally_recycle (ok.region r) recycle, Nat.add_mul]
    ring
  · rw [if_neg used, if_neg used, Nat.zero_mul, Nat.add_zero]

end Table

attribute [irreducible] Table.bytes

end WeaveC.Alloc
