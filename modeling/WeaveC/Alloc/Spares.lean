import WeaveC.Alloc.HugeBlocks
import WeaveC.Alloc.Written

/-!
# Spare regions

`popClass` tries the region its class's allocations try first, then each of the
class's regions in the order of their list, sweeps once, and takes a spare
region.  The list of a class is in address order and holds every region of the
class, so a search that comes to the spares has tried them all; it has found
them all full unless the system refused a commit on the way.
-/

namespace WeaveC.Alloc

open WeaveC.Library

variable {A : Arena} {t t' t'' : Table} {h h' : Heap} {th th' : Thread}

/-! ## The lists of the classes -/

/-- No region was taken, and each has its entry, its class and its link. -/
structure Table.Alike (t t' : Table) : Prop where
  regions : t'.regions = t.regions
  kind : ∀ r, (t.region r).SameKind (t'.region r)

namespace Table.Alike

theorem refl (t : Table) : t.Alike t := ⟨rfl, fun r => .refl (t.region r)⟩

theorem of_eq (same : t' = t) : t.Alike t' := same ▸ refl t

theorem trans (first : t.Alike t') (second : t'.Alike t'') : t.Alike t'' :=
  ⟨second.regions.trans first.regions, fun r => (first.kind r).trans (second.kind r)⟩

theorem setRegion (t : Table) {r : Nat} {R : Region} (kind : (t.region r).SameKind R) :
    t.Alike (t.setRegion r R) := by
  refine ⟨rfl, fun r' => ?_⟩
  change (t.region r').SameKind (Function.update t.region r R r')
  by_cases same : r' = r
  · subst same
    rw [Function.update_self]
    exact kind
  · rw [Function.update_of_ne same]
    exact .refl _

theorem of_sameSlots (same : t.SameSlots t') : t.Alike t' := by
  refine ⟨same.regions, fun r => ?_⟩
  obtain ⟨marks, eq⟩ := same.region r
  rw [eq]
  exact ⟨rfl, rfl, rfl⟩

theorem enqueueRun (slots : Nat → Entry) (i n : Nat) (t : Table) :
    t.Alike (Thread.enqueueRun slots i n t) := by
  induction n generalizing i t with
  | zero => exact .refl t
  | succ n inductionHypothesis =>
      exact (setRegion t (Region.sameKind_enqueue _ _)).trans (inductionHypothesis (i + 1) _)

theorem sweepWorld (A : Arena) (h : Heap) (answer : Heap.WorldAnswer) :
    h.table.Alike (h.sweepWorld A answer).2.table := by
  have prepared : h.table.SameSlots (h.prepareMarks answer.grantMarks).2.table :=
    TableOk.sameSlots_prepareFrom _ _ _ _
  unfold Heap.sweepWorld
  split_ifs with stopped
  · dsimp only
    split_ifs
    · have marked := prepared.trans (TableOk.sameSlots_mark A
        (h.prepareMarks answer.grantMarks).2 answer)
      refine (of_sameSlots marked).trans ⟨rfl, fun r => ?_⟩
      simp only [Heap.recycle, Heap.recycleRegions, Heap.recycleHuge]
      split_ifs
      · exact Region.sameKind_recycle _ _
      · exact .refl _
    · exact of_sameSlots prepared
  · exact .refl _

end Table.Alike

theorem popSlot_kind (A : Arena) (grant : Nat → Bool) (region : Nat) (R : Region)
    (shadow : Runtime.Shadow) : R.SameKind (popSlot A grant region R shadow).2.1 := by
  have pops := popSlot_pops A grant region R shadow
  generalize popSlot A grant region R shadow = result at pops ⊢
  cases pops with
  | listed | nothing | fresh => exact ⟨rfl, rfl, rfl⟩

theorem popRegion_kind (A : Arena) (grant : Nat → Bool) (region want : Nat) (R : Region)
    (shadow : Runtime.Shadow) : R.SameKind (popRegion A grant region want R shadow).2.1 := by
  induction want generalizing R shadow with
  | zero => exact .refl R
  | succ want inductionHypothesis =>
      have first := popSlot_kind A grant region R shadow
      unfold popRegion
      cases popped : popSlot A grant region R shadow with
      | mk taken after =>
          rw [popped] at first
          cases taken with
          | none => exact first
          | some e => exact first.trans (inductionHypothesis after.1 after.2)

/-- A step leaves every list as it is, or is `takeSpare`. -/
theorem step_alike {a : Answer} (taken : th.step A h a = some (h', th')) :
    h.table.Alike h'.table ∨
      ∃ w swept, th.point = .spare w swept ∧ h.table.takeSpare w.cls = some h'.table := by
  have branch := branch_of_step taken
  generalize point : th.point = p at branch
  cases branch with
  | takesSpare found => exact .inr ⟨_, _, rfl, found⟩
  | @popRegion w swept first region es R shadow popped =>
      have kind := popRegion_kind A a.grant region (if w.cached then A.cacheLimit w.cls else 1)
        (h.table.region region) h.shadow
      rw [popped] at kind
      exact .inl (.setRegion _ kind)
  | setActive => exact .inl ⟨rfl, fun r => .refl _⟩
  | storeLive | claim | resizeWord => exact .inl (.setRegion _ (Region.sameKind_setWord _ _ _))
  | retire => exact .inl (.setRegion _ (Region.sameKind_enqueue _ _))
  | flushRun => exact .inl (.enqueueRun _ _ _ _)
  | giveBack => exact .inl (.setRegion _ (Region.sameKind_giveBack _ _))
  | world => exact .inl (.sweepWorld A h a.world)
  | hugeFreed _ found =>
      obtain ⟨i, block, dead, listed, -, -, -, -, -, same⟩ := hugeFree_eq found
      exact .inl (.of_eq same)
  | charge | credit | fold => exact .inl (.of_eq (foldLive_heap h _ _).2.2)
  | overBudget => exact .inl (.of_eq (overBudget_heap A h _ _).2.2)
  -- only the thread's own data, the counters or the flags
  | _ => exact .inl (.refl _)

theorem stepOf_alike {T : Type} [DecidableEq T] {s : State T} {e : Event T}
    (taken : s.stepOf A e = some (h', th')) :
    s.heap.table.Alike h'.table ∨
      ∃ w swept, (s.thread e.thread).point = .spare w swept ∧
        s.heap.table.takeSpare w.cls = some h'.table := by
  unfold State.stepOf at taken
  cases called : e.call with
  | none =>
      rw [called] at taken
      exact step_alike taken
  | some call =>
      rw [called] at taken
      dsimp only at taken
      split_ifs at taken
      obtain ⟨th'', -, eq⟩ := Option.map_eq_some_iff.mp taken
      obtain ⟨rfl, -⟩ := Prod.mk.inj eq
      exact .inl (.refl _)

/-- The list of a class goes up and leaves out no region of the class. -/
structure Table.Ordered (t : Table) : Prop where
  forward : ∀ r, r < t.regions → (t.region r).regionNext ≠ NoRegion → r < (t.region r).regionNext
  later : ∀ r q, r < q → q < t.regions → (t.region r).regionClass = (t.region q).regionClass →
    (t.region r).regionNext ≤ q

namespace Table.Ordered

theorem initial (A : Arena) : (Table.initial A).Ordered := by
  have own {r : Nat} (used : r < A.classCount) :
      (Table.initial A).region r = Region.untouched (A.entry r) r := if_pos used
  constructor
  · intro r used some
    rw [own used] at some
    exact absurd rfl some
  · intro r q less used same
    change q < A.classCount at used
    rw [own used, own (Nat.lt_trans less used)] at same
    exact absurd same (Nat.ne_of_lt less)

theorem alike (ordered : t.Ordered) (same : t.Alike t') : t'.Ordered := by
  constructor
  · intro r used some
    rw [same.regions] at used
    rw [(same.kind r).regionNext] at some ⊢
    exact ordered.forward r used some
  · intro r q less used class_eq
    rw [same.regions] at used
    rw [(same.kind r).regionClass, (same.kind q).regionClass] at class_eq
    rw [(same.kind r).regionNext]
    exact ordered.later r q less used class_eq

variable {T : Type} {place : Slot → Place T}

/-- Nothing of the class comes after the region the list ends with. -/
theorem last_le (ordered : t.Ordered) (ok : TableOk A t place) {last q : Nat}
    (ends : (t.region last).regionNext = NoRegion) (used : q < t.regions)
    (same : (t.region last).regionClass = (t.region q).regionClass) : q ≤ last := by
  refine Nat.le_of_not_lt fun less => ?_
  have next := ordered.later last q less used same
  have count := ok.count
  rw [ends] at next
  unfold NoRegion at next
  unfold RegionCount at count
  omega

theorem lastOf_ends (ordered : t.Ordered) (ok : TableOk A t place) (fuel : Nat) {region : Nat}
    (used : region < t.regions) (enough : t.regions ≤ region + fuel) :
    (t.region (t.lastOf fuel region)).regionNext = NoRegion := by
  induction fuel generalizing region with
  | zero => exact absurd used (Nat.not_lt_of_le enough)
  | succ fuel inductionHypothesis =>
      unfold Table.lastOf
      by_cases ends : (t.region region).regionNext = NoRegion
      · rw [if_pos ends]
        exact ends
      · rw [if_neg ends]
        have up := ordered.forward region used ends
        exact inductionHypothesis (ok.next region used ends).1 (by omega)

/-- A spare goes behind the last region of the list. -/
theorem takeSpare (ordered : t.Ordered) (ok : TableOk A t place) {c : Nat} (made : c < A.classCount)
    (taken : t.takeSpare c = some t') : t'.Ordered := by
  unfold Table.takeSpare at taken
  dsimp only at taken
  split_ifs at taken with none
  have used := Nat.lt_of_lt_of_le made ok.classes
  obtain ⟨lastUsed, lastClass⟩ := ok.lastOf RegionCount used
  have ends := ordered.lastOf_ends ok RegionCount used (by have := ok.count; omega)
  rw [ok.own c made] at lastClass
  generalize t.lastOf RegionCount c = last at lastUsed lastClass ends taken
  obtain rfl := Option.some.inj taken
  have other : last ≠ t.regions := Nat.ne_of_lt lastUsed
  have spare : t.withSpare c t.regions last t.regions =
      { t.region t.regions with entry := (t.region c).entry, regionClass := c } := by
    simp [Table.withSpare, other.symm]
  have linked : t.withSpare c t.regions last last =
      { t.region last with regionNext := t.regions } := by
    simp [Table.withSpare, other]
  have kept (r : Nat) (ne : r ≠ t.regions) (ne' : r ≠ last) :
      t.withSpare c t.regions last r = t.region r := by
    simp [Table.withSpare, ne, ne']
  have class_eq (r : Nat) (below : r < t.regions) :
      (t.withSpare c t.regions last r).regionClass = (t.region r).regionClass := by
    by_cases same : r = last
    · rw [same, linked]
    · rw [kept r (Nat.ne_of_lt below) same]
  constructor
  · intro r below some
    dsimp only at below some ⊢
    by_cases isLast : r = last
    · rw [isLast, linked]
      exact lastUsed
    · by_cases isSpare : r = t.regions
      · rw [isSpare, spare] at some
        exact absurd (ok.spare t.regions (Nat.le_refl _)).2 some
      · rw [kept r isSpare isLast] at some ⊢
        exact ordered.forward r (by omega) some
  · intro r q less below same
    dsimp only at below same ⊢
    have first : r < t.regions := by omega
    rw [class_eq r first] at same
    by_cases isSpare : q = t.regions
    · rw [isSpare, spare] at same
      dsimp only at same
      by_cases isLast : r = last
      · rw [isLast, linked, isSpare]
      · have before : r ≤ last := ordered.last_le ok ends first (lastClass.trans same.symm)
        have next := ordered.later r last (by omega) lastUsed (same.trans lastClass.symm)
        rw [kept r (by omega) isLast]
        omega
    · rw [class_eq q (by omega)] at same
      by_cases isLast : r = last
      · rw [isLast] at same less
        have := ordered.last_le ok ends (by omega) same
        omega
      · rw [kept r (by omega) isLast]
        exact ordered.later r q less (by omega) same

end Table.Ordered

/-! ## Full regions and refused commits -/

namespace Region

/-- No free slot, and none left that was never handed out. -/
def Full (R : Region) : Prop := R.freeHead = 0 ∧ R.entry.capacity ≤ R.bump

instance (R : Region) : Decidable R.Full := inferInstanceAs (Decidable (_ ∧ _))

/-- The next slot needs a commit that the system refuses. -/
def Refuses (A : Arena) (grant : Nat → Bool) (region : Nat) (R : Region) : Prop :=
  R.freeHead = 0 ∧ R.bump < R.entry.capacity ∧
    (commit A grant (A.regionStart region) R.committed ((R.bump + 1) * R.entry.size) DataChunk
        A.regionBytes = none ∨
      commit A grant (A.wordStart region) R.metaCommitted ((R.bump + 1) * 4) MetaChunk
        (A.regionBytes >>> 2) = none)

instance (A : Arena) (grant : Nat → Bool) (region : Nat) (R : Region) :
    Decidable (R.Refuses A grant region) :=
  inferInstanceAs (Decidable (_ ∧ _ ∧ (_ ∨ _)))

variable {grant : Nat → Bool} {region : Nat} {R R' : Region} {shadow : Runtime.Shadow}

theorem Refuses.not_full (refuses : R.Refuses A grant region) : ¬ R.Full :=
  fun full => absurd full.2 (Nat.not_le_of_lt refuses.2.1)

theorem full_congr (kind : R.SameKind R') (bump : R'.bump = R.bump)
    (freeHead : R'.freeHead = R.freeHead) : R'.Full ↔ R.Full := by
  unfold Full
  rw [kind.entry, bump, freeHead]

end Region

section Pops

variable {grant : Nat → Bool} {region : Nat} {R : Region} {shadow : Runtime.Shadow}

/-- `popSlot` does not say why it failed. -/
theorem popSlot_none_iff : (popSlot A grant region R shadow).1 = none ↔
    R.Full ∨ R.Refuses A grant region := by
  unfold popSlot Region.Full Region.Refuses
  by_cases listed : R.freeHead ≠ 0
  · rw [if_pos listed]
    exact iff_of_false nofun (by rintro (⟨none, -⟩ | ⟨none, -⟩) <;> exact listed none)
  · rw [if_neg listed]
    have none := not_not.mp listed
    dsimp only
    by_cases full : R.entry.capacity ≤ R.bump
    · rw [if_pos full]
      exact iff_of_true rfl (.inl ⟨none, full⟩)
    · rw [if_neg full]
      have room := Nat.lt_of_not_le full
      cases data : commit A grant (A.regionStart region) R.committed
          ((R.bump + 1) * R.entry.size) DataChunk A.regionBytes with
      | none => exact iff_of_true rfl (.inr ⟨none, room, .inl rfl⟩)
      | some committed =>
          dsimp only
          cases words : commit A grant (A.wordStart region) R.metaCommitted ((R.bump + 1) * 4)
              MetaChunk (A.regionBytes >>> 2) with
          | none => exact iff_of_true rfl (.inr ⟨none, room, .inr rfl⟩)
          | some metaCommitted =>
              refine iff_of_false nofun ?_
              rintro (⟨-, whole⟩ | ⟨-, -, refused | refused⟩)
              · exact full whole
              · cases refused
              · cases refused

/-- A failed `popSlot` leaves the region's slots alone. -/
theorem popSlot_none_same (failed : (popSlot A grant region R shadow).1 = none) :
    (popSlot A grant region R shadow).2.1.bump = R.bump ∧
      (popSlot A grant region R shadow).2.1.freeHead = R.freeHead := by
  have pops := popSlot_pops A grant region R shadow
  generalize popSlot A grant region R shadow = result at pops failed ⊢
  cases pops with
  | listed => cases failed
  | nothing => exact ⟨rfl, rfl⟩
  | fresh => cases failed

/-- A try of a region that gives nothing: the region is full or the system
refuses, and its slots are as they were. -/
theorem popRegion_nil {want : Nat} (some : 0 < want)
    (nothing : (popRegion A grant region want R shadow).1 = []) :
    (R.Full ∨ R.Refuses A grant region) ∧
      (popRegion A grant region want R shadow).2.1.bump = R.bump ∧
        (popRegion A grant region want R shadow).2.1.freeHead = R.freeHead := by
  obtain ⟨want, rfl⟩ := Nat.exists_eq_succ_of_ne_zero (Nat.ne_of_gt some)
  have why : (popSlot A grant region R shadow).1 = none ↔ R.Full ∨ R.Refuses A grant region :=
    popSlot_none_iff
  have same : (popSlot A grant region R shadow).1 = none →
      (popSlot A grant region R shadow).2.1.bump = R.bump ∧
        (popSlot A grant region R shadow).2.1.freeHead = R.freeHead := popSlot_none_same
  unfold popRegion at nothing ⊢
  cases popped : popSlot A grant region R shadow with
  | mk taken after =>
      rw [popped] at nothing why same
      cases taken with
      | none => exact ⟨why.mp rfl, same rfl⟩
      | some e => cases nothing

end Pops

theorem Arena.cacheLimit_pos (A : Arena) (c : Nat) : 0 < A.cacheLimit c := by
  unfold Arena.cacheLimit
  dsimp only
  split_ifs with none small
  · exact Nat.one_pos
  · exact Nat.pos_of_ne_zero none
  · exact Nat.succ_pos _

namespace Table

/-- Every region that the class has is full. -/
def Full (t : Table) (c : Nat) : Prop :=
  ∀ r, r < t.regions → (t.region r).regionClass = c → (t.region r).Full

instance (t : Table) (c : Nat) : Decidable (t.Full c) :=
  inferInstanceAs (Decidable (∀ r, r < t.regions → _ → _))

/-- A search has tried some of the class's regions: they are full, or the system
refused a commit and the class has room. -/
structure Searched (t : Table) (c : Nat) (tried : Nat → Prop) (refused : Bool) : Prop where
  full : refused = false → ∀ r, r < t.regions → (t.region r).regionClass = c → tried r →
    (t.region r).Full
  room : refused = true → ¬ t.Full c

theorem Searched.full_iff {c : Nat} {refused : Bool} (searched : t.Searched c (fun _ => True) refused) :
    t.Full c ↔ refused = false := by
  cases refused with
  | false => exact iff_of_true (fun r used own => searched.full rfl r used own trivial) rfl
  | true => exact iff_of_false (searched.room rfl) Bool.noConfusion

theorem Searched.mono {c : Nat} {tried tried' : Nat → Prop} {refused : Bool}
    (searched : t.Searched c tried refused)
    (fewer : ∀ r, r < t.regions → (t.region r).regionClass = c → tried' r → tried r) :
    t.Searched c tried' refused :=
  ⟨fun none r used own here => searched.full none r used own (fewer r used own here), searched.room⟩

section Visit

variable {region : Nat} {R : Region} (kind : (t.region region).SameKind R)
  (bump : R.bump = (t.region region).bump) (freeHead : R.freeHead = (t.region region).freeHead)

include kind bump freeHead

theorem region_full_iff (r : Nat) :
    ((t.setRegion region R).region r).Full ↔ (t.region r).Full := by
  change (Function.update t.region region R r).Full ↔ _
  by_cases same : r = region
  · subst same
    rw [Function.update_self]
    exact Region.full_congr kind bump freeHead
  · rw [Function.update_of_ne same]

theorem full_setRegion_iff (c : Nat) : (t.setRegion region R).Full c ↔ t.Full c := by
  have alike := Alike.setRegion t kind
  unfold Full
  refine forall_congr' fun r => imp_congr_right fun _ => ?_
  rw [(alike.kind r).regionClass, region_full_iff kind bump freeHead r]

/-- One more region is tried, and gives nothing. -/
theorem Searched.visit {c : Nat} {tried : Nat → Prop} {refused : Bool} {grant : Nat → Bool}
    (searched : t.Searched c tried refused) (used : region < t.regions)
    (own : (t.region region).regionClass = c)
    (nothing : (t.region region).Full ∨ (t.region region).Refuses A grant region) :
    (t.setRegion region R).Searched c (fun r => tried r ∨ r = region)
      (refused || decide ((t.region region).Refuses A grant region)) := by
  have alike := Alike.setRegion t kind
  constructor
  · intro none r below cls here
    obtain ⟨notYet, notNow⟩ := Bool.or_eq_false_iff.mp none
    rw [(alike.kind r).regionClass] at cls
    rw [region_full_iff kind bump freeHead r]
    rcases here with before | rfl
    · exact searched.full notYet r below cls before
    · exact nothing.resolve_right (of_decide_eq_false notNow)
  · intro some
    rw [full_setRegion_iff kind bump freeHead]
    rcases Bool.or_eq_true_iff.mp some with before | now
    · exact searched.room before
    · exact fun full => (of_decide_eq_true now).not_full (full region used own)

end Visit

end Table

/-! ## The search -/

namespace Point

/-- What a search has found at a point of it; `refused` says whether a commit
was refused since it began with the region that allocations try first. -/
def Search (t : Table) (refused : Bool) : Point → Prop
  | .popRegion _ _ true _ => refused = false
  | .popRegion w _ false region => t.Searched w.cls (· < region) refused
  | .popNext w _ region => t.Searched w.cls (· ≤ region) refused
  | .popGained w _ | .spare w _ => t.Searched w.cls (fun _ => True) refused
  | _ => True

/-- Whether a commit was refused at a region that gave nothing, after a step. -/
def refusedAfter (A : Arena) (h : Heap) (a : Answer) (refused : Bool) : Point → Bool
  | .popActive _ _ => false
  | .popRegion _ _ _ region => refused || decide ((h.table.region region).Refuses A a.grant region)
  | _ => refused

/-- A point outside of the search. -/
def Quiet (p : Point) : Prop := ∀ t refused, p.Search t refused

end Point

section Quiet

theorem popped_quiet (w : Want) (got : Nat) (e : Entry) : (Thread.popped w got e).Quiet := by
  unfold Thread.popped
  split_ifs <;> exact fun _ _ => trivial

theorem allocated_quiet (purpose : Purpose) : (Thread.allocated purpose).Quiet := by
  cases purpose <;> exact fun _ _ => trivial

theorem reversal_quiet (w : Want) (count i : Nat) : (Thread.reversal w count i).Quiet := by
  unfold Thread.reversal
  split_ifs <;> exact fun _ _ => trivial

theorem resume_quiet (k : Then) : (Thread.resume k).Quiet := by
  cases k <;> exact fun _ _ => trivial

theorem flushed_quiet (c : Nat) (k : FlushFor) : (Thread.flushed c k).Quiet := by
  cases k <;> exact fun _ _ => trivial

theorem drainFrom_quiet (A : Arena) (c : Nat) (k : After) : (Thread.drainFrom A c k).Quiet := by
  unfold Thread.drainFrom
  split_ifs <;> exact fun _ _ => trivial

theorem overBudget_quiet (A : Arena) (h : Heap) (now : BitVec 64) (r : Reading) :
    (Thread.overBudget A h now r).2.Quiet := by
  cases r with
  | budgets gained live =>
      unfold Thread.overBudget
      dsimp only
      split_ifs <;> exact fun _ _ => trivial
  | ended gained live ended =>
      unfold Thread.overBudget
      dsimp only
      split_ifs <;> exact fun _ _ => trivial
  | _ => exact fun _ _ => trivial

theorem allocate_quiet (th : Thread) (size alignment : Nat) (purpose : Purpose) (mapped : Bool) :
    (th.allocate A size alignment purpose mapped).point.Quiet := by
  unfold Thread.allocate
  dsimp only
  split_ifs <;> exact fun _ _ => trivial

theorem call_quiet {mapped : Bool} {call : Call} (quiet : th.point.Quiet)
    (started : th.call A mapped call = some th') : th'.point.Quiet := by
  cases call with
  | alloc size alignment =>
      obtain rfl := Option.some.inj started
      exact allocate_quiet _ _ _ _ _
  | free p =>
      obtain rfl := Option.some.inj started
      split_ifs
      · exact quiet
      · exact fun _ _ => trivial
  | realloc p size =>
      obtain rfl := Option.some.inj started
      split_ifs
      · exact allocate_quiet _ _ _ _ _
      · exact fun _ _ => trivial
  | exit =>
      unfold Thread.call at started
      split_ifs at started
      obtain rfl := Option.some.inj started
      exact fun _ _ => trivial

end Quiet

section Step

variable {T : Type} {place : Slot → Place T} {a : Answer}

/-- A class's own region comes first. -/
theorem TableOk.class_le (ok : TableOk A t place) {r : Nat} (used : r < t.regions) :
    (t.region r).regionClass ≤ r := by
  by_cases made : r < A.classCount
  · exact Nat.le_of_eq (ok.own r made)
  · have := ok.ofClass r used
    omega

theorem popRegion_search {w : Want} {swept first : Bool} {region : Nat} {refused : Bool}
    (ok : TableOk A h.table place)
    (here : PointOk A h.table th.cache (.popRegion w swept first region))
    (point : th.point = .popRegion w swept first region)
    (search : (Point.popRegion w swept first region).Search h.table refused)
    (taken : th.step A h a = some (h', th')) :
    th'.point.Search h'.table
      (refused || decide ((h.table.region region).Refuses A a.grant region)) := by
  obtain ⟨-, -, used, own⟩ := here
  have some : 0 < if w.cached = true then A.cacheLimit w.cls else 1 := by
    split_ifs
    · exact A.cacheLimit_pos w.cls
    · exact Nat.one_pos
  simp only [Thread.step, point] at taken
  have kind := popRegion_kind A a.grant region (if w.cached = true then A.cacheLimit w.cls else 1)
    (h.table.region region) h.shadow
  have nothing : (popRegion A a.grant region (if w.cached = true then A.cacheLimit w.cls else 1)
      (h.table.region region) h.shadow).1 = [] → _ := popRegion_nil some
  generalize popRegion A a.grant region (if w.cached = true then A.cacheLimit w.cls else 1)
    (h.table.region region) h.shadow = result at taken kind nothing
  obtain ⟨es, R, shadow⟩ := result
  obtain ⟨rfl, rfl⟩ := Prod.mk.inj (Option.some.inj taken)
  cases es with
  | cons e es =>
      cases first with
      | true => exact popped_quiet w _ e _ _
      | false => trivial
  | nil =>
      obtain ⟨why, bump, freeHead⟩ := nothing rfl
      cases first with
      | true =>
          -- the search starts over with the class's own region, before which there is none
          have none : h.table.Searched w.cls (fun _ => False) false :=
            ⟨fun _ _ _ _ here => here.elim, Bool.noConfusion⟩
          have visited := none.visit kind bump freeHead used own why
          obtain rfl : refused = false := search
          refine ⟨fun notYet r below cls before => ?_, visited.room⟩
          have first := ok.class_le (show r < h.table.regions from below)
          rw [← ((Table.Alike.setRegion h.table kind).kind r).regionClass, cls] at first
          exact absurd before (Nat.not_lt_of_le first)
      | false =>
          have visited := Table.Searched.visit kind bump freeHead search used own why
          refine visited.mono fun r _ _ here => ?_
          exact Nat.lt_or_eq_of_le here

/-- What a step leaves of a search. -/
theorem step_search {refused : Bool} (ok : TableOk A h.table place) (ordered : h.table.Ordered)
    (here : PointOk A h.table th.cache th.point) (search : th.point.Search h.table refused)
    (taken : th.step A h a = some (h', th')) :
    th'.point.Search h'.table (th.point.refusedAfter A h a refused) := by
  have branch := branch_of_step taken
  generalize point : th.point = p at branch here search ⊢
  cases branch with
  | popRegion => exact popRegion_search ok here point search taken
  | goes next =>
      cases next with
      | popActive => rfl
      | lastRegion ends =>
          obtain ⟨-, -, used, own⟩ := here
          refine Table.Searched.mono search fun r below cls _ => ?_
          exact ordered.last_le ok ends below (own.trans cls.symm)
      | @nextRegion w swept region =>
          obtain ⟨-, -, used, own⟩ := here
          refine Table.Searched.mono search fun r below cls before => ?_
          refine Nat.le_of_not_lt fun above => ?_
          have next := ordered.later region r above below (own.trans cls.symm)
          exact absurd before (Nat.not_lt_of_le next)
      | gainedSpares => exact search
      | sweepDrains => exact drainFrom_quiet A _ _ _ _
      | unwanted | lockTaken => exact resume_quiet _ _ _
      | _ => trivial
  | setActive => exact popped_quiet _ _ _ _ _
  | setCount | swapHigh => exact reversal_quiet _ _ _ _ _
  | shadowLive | hugeMade => exact allocated_quiet _ _ _
  | overBudget => exact overBudget_quiet A h _ _ _ _
  | shadowDead | credit =>
      dsimp only [Thread.goto_point]
      split_ifs <;> trivial
  | flushEnds =>
      rw [Thread.goto_point]
      split_ifs
      · trivial
      · exact flushed_quiet _ _ _ _
  | flushGained => exact flushed_quiet _ _ _ _
  | giveBackEnds => exact drainFrom_quiet A _ _ _ _
  | @fold k => cases k <;> trivial
  | sweepUnlock => exact resume_quiet _ _ _
  | resizeMoves => exact allocate_quiet _ _ _ _ _ _ _
  | _ => trivial

end Step

end WeaveC.Alloc
