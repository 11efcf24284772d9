import WeaveC.Alloc.Slots

/-!
# A fork

A fork copies every thread's cache as it is between two stores, and only the
thread that forks goes on.  The child gives what the other caches hold back to
the regions, one entry after another; an entry whose slot's word says that it
does not belong there is left.
-/

namespace WeaveC.Alloc

open WeaveC.Library

/-! ## The drain -/

namespace Table

/-- What `flushReleases` checks of an entry of class `c`. -/
def Releasable (c : Nat) (t : Table) (e : Entry) : Prop :=
  e.region < t.regions ∧ (t.region e.region).regionClass = c ∧
    e.slot < (t.region e.region).bump ∧ t.word e.place = Word.claimed

instance (c : Nat) (t : Table) (e : Entry) : Decidable (t.Releasable c e) :=
  inferInstanceAs (Decidable (_ ∧ _))

/-- What `returnSlots` checks of an entry of class `c`. -/
def Returnable (c : Nat) (t : Table) (e : Entry) : Prop :=
  e.region < t.regions ∧ (t.region e.region).regionClass = c ∧
    e.slot < (t.region e.region).bump ∧ (t.word e.place).state ≠ .live ∧
      (t.word e.place).state ≠ .dead

instance (c : Nat) (t : Table) (e : Entry) : Decidable (t.Returnable c e) :=
  inferInstanceAs (Decidable (_ ∧ _))

/-- The loop of both drains, over `n` entries from `i` on: an entry that passes
goes to its region's list, which `put` makes.  It counts those that do. -/
def drain (passes : Table → Entry → Bool) (put : Region → Nat → Region) (slots : Nat → Entry) :
    Nat → Nat → Table → Table × Nat
  | _, 0, t => (t, 0)
  | i, n + 1, t =>
      let e := slots i
      if passes t e then
        let (t, moved) :=
          drain passes put slots (i + 1) n
            (t.setRegion e.region (put (t.region e.region) e.slot))
        (t, moved + 1)
      else drain passes put slots (i + 1) n t

end Table

namespace Heap

/-- `flushReleases` with its check. -/
def flushReleases (A : Arena) (h : Heap) (released : SlotCache) (c : Nat) : Heap :=
  let (table, moved) :=
    h.table.drain (fun t e => t.Releasable c e) Region.enqueue released.slots 0 released.count
  let bytes := moved * (A.entry c).size
  if bytes ≠ 0 then
    { h with
      table
      quarantineBytes := h.quarantineBytes + BitVec.ofNat 64 bytes
      classGained := Function.update h.classGained c (h.classGained c + BitVec.ofNat 64 bytes) }
  else { h with table }

/-- `returnSlots` with its check. -/
def returnSlots (h : Heap) (available : SlotCache) (c : Nat) : Heap :=
  { h with
    table :=
      (h.table.drain (fun t e => t.Returnable c e) Region.giveBack available.slots 0
        available.count).1 }

/-- `drainCache` with its check. -/
def drainCache (A : Arena) (h : Heap) (k : ThreadCache) : Heap :=
  let h :=
    (List.range A.cachedClasses).foldl
      (fun h c => (h.flushReleases A (k.release c) c).returnSlots (k.alloc c) c) h
  if k.liveDelta ≠ 0 then h.addLive k.liveDelta else h

end Heap

/-- `forkPrepare`, the fork by thread `t` and `forkChild`: none while a sweep
holds its lock.  The child has one thread, with its own cache or none. -/
def State.fork {T : Type} [DecidableEq T] (A : Arena) (s : State T) (t : T) :
    Option (State Unit) :=
  if (s.thread t).point = .idle ∧ s.heap.sweepLocked = false then
    some
      { heap := (s.caches.filter (· ≠ t)).foldl
          (fun h u => h.drainCache A (s.thread u).cache) s.heap
        thread := fun _ => s.thread t
        caches := if t ∈ s.caches then [()] else [] }
  else none

/-! ## What the checks tell apart -/

variable {T : Type} {A : Arena} {t t' t'' : Table} {place : Slot → Place T}

/-- Where a slot with the word of a free one, or of one never used, can be. -/
def Place.Loose : Place T → Prop
  | .free | .cached _ _ | .taken _ => True
  | _ => False

theorem TableOk.releasable_iff (ok : TableOk A t place) {c : Nat} {e : Entry} :
    t.Releasable c e ↔ t.regionClass e.place = c ∧ (place e.place).Claimed := by
  have word := ok.word e.place
  constructor
  · rintro ⟨-, cls, -, claimed⟩
    refine ⟨cls, ?_⟩
    have dead : (t.word e.place).state = .dead := by rw [claimed]; rfl
    refine (word.dead_iff.mp dead).resolve_right fun queued => ?_
    exact (word.queued_iff.mp queued).2 (by rw [claimed]; rfl)
  · rintro ⟨cls, claimed⟩
    have used : place e.place ≠ .fresh := (RegionOk.claimed_ne claimed).1
    exact ⟨ok.used used, cls, (ok.region e.region).lt_bump used,
      (Place.WordOk.claimed claimed).mp word⟩

theorem TableOk.returnable_iff (ok : TableOk A t place) {c : Nat} {e : Entry} :
    t.Returnable c e ↔ t.regionClass e.place = c ∧ (place e.place).Loose := by
  have word := ok.word e.place
  have below : e.slot < (t.region e.region).bump ↔ place e.place ≠ .fresh := by
    rw [Ne, show place e.place = .fresh ↔ _ from (ok.region e.region).fresh e.slot, Nat.not_le]
  have loose : (place e.place).Loose ↔ place e.place ≠ .fresh ∧
      (t.word e.place).state ≠ .live ∧ (t.word e.place).state ≠ .dead := by
    cases here : place e.place with
    | fresh => simp [Place.Loose]
    | live | queued | retiring | released =>
        rw [here] at word
        simp only [Place.WordOk, Word.Queued] at word
        simp [Place.Loose, word, Word.claimed]
    | free =>
        rw [here] at word
        simp only [Place.WordOk] at word
        simp [Place.Loose, word]
    | cached | taken =>
        rw [here] at word
        simp only [Place.WordOk] at word
        rcases word with word | word <;> simp [Place.Loose, word]
  unfold Table.Returnable
  rw [below, loose]
  constructor
  · rintro ⟨-, cls, used, rest⟩
    exact ⟨cls, used, rest⟩
  · rintro ⟨cls, used, rest⟩
    exact ⟨ok.used used, cls, used, rest⟩

/-! ## One cache's slots of a class -/

/-- The tables differ in the regions' slots only. -/
structure Table.SameKinds (t t' : Table) : Prop where
  regions : t'.regions = t.regions
  region : ∀ r, (t.region r).SameKind (t'.region r)

namespace Table.SameKinds

theorem refl (t : Table) : t.SameKinds t := ⟨rfl, fun _ => .refl _⟩

theorem trans (first : t.SameKinds t') (second : t'.SameKinds t'') : t.SameKinds t'' :=
  ⟨second.regions.trans first.regions, fun r => (first.region r).trans (second.region r)⟩

theorem grows (same : t.SameKinds t') : t.Grows t' :=
  ⟨same.regions.ge, fun r _ => (same.region r).regionClass, fun r _ => (same.region r).entry⟩

theorem class_eq (same : t.SameKinds t') (x : Slot) : t'.regionClass x = t.regionClass x :=
  (same.region x.region).regionClass

theorem setRegion {r : Nat} {R : Region} (kind : (t.region r).SameKind R) :
    t.SameKinds (t.setRegion r R) := by
  refine ⟨rfl, fun r' => ?_⟩
  by_cases same : r' = r
  · subst same
    simpa [Table.setRegion] using kind
  · simpa [Table.setRegion, same] using Region.SameKind.refl _

end Table.SameKinds

/-- A drain of class `c` for slots at place `q`, to place `p`: what passes its
check is at a place like `q`, and what it does to a region moves a slot from
`q` to `p`. -/
structure Drains (A : Arena) (c : Nat) (like : Place T → Prop) (q p : Place T)
    (passes : Table → Entry → Bool) (put : Region → Nat → Region) : Prop where
  check : ∀ {t : Table} {place : Slot → Place T}, TableOk A t place → ∀ e : Entry,
    passes t e = true ↔ t.regionClass e.place = c ∧ like (place e.place)
  move : ∀ {t : Table} {place : Slot → Place T}, TableOk A t place → ∀ x, place x = q →
    TableOk A (t.setRegion x.region (put (t.region x.region) x.index))
      (Function.update place x p)
  kind : ∀ R s, Region.SameKind R (put R s)
  own : like q
  cls : ∀ {t : Table} {place : Slot → Place T}, TableOk A t place → ∀ x, place x = q →
    t.regionClass x = c

theorem flush_drains (A : Arena) (u : T) (c : Nat) :
    Drains A c Place.Claimed (.released u c) .queued (fun t e => t.Releasable c e)
      Region.enqueue where
  check ok e := by
    rw [decide_eq_true_eq]
    exact ok.releasable_iff
  move ok x here := ok.enqueue (by rw [here]; trivial)
  kind := Region.sameKind_enqueue
  own := trivial
  cls ok x here := ok.cls x u c (.inr here)

theorem return_drains (A : Arena) (u : T) (c : Nat) :
    Drains A c Place.Loose (.cached u c) .free (fun t e => t.Returnable c e)
      Region.giveBack where
  check ok e := by
    rw [decide_eq_true_eq]
    exact ok.returnable_iff
  move ok x here := ok.giveBack (by rw [here]; trivial)
  kind := Region.sameKind_giveBack
  own := trivial
  cls ok x here := ok.cls x u c (.inl here)

/-- The entries from `i` on up to `stop`: those of `S` between `low` and `high`,
each once, and around them only such as fail the check. -/
structure Listed (t : Table) (place : Slot → Place T) (c : Nat) (like : Place T → Prop)
    (slots : Nat → Entry) (i stop low high : Nat) (S : Set Slot) : Prop where
  segment : Segment (fun i => (slots i).place) low high S
  after : i ≤ low
  before : high ≤ stop
  stale : ∀ j, i ≤ j → j < stop → j < low ∨ high ≤ j →
    ¬ (t.regionClass (slots j).place = c ∧ like (place (slots j).place))

namespace Drains

variable {c : Nat} {like : Place T → Prop} {q p : Place T} {passes : Table → Entry → Bool}
  {put : Region → Nat → Region}

/-- The loop moves the slots it lists, and no other. -/
theorem drain (drains : Drains A c like q p passes put) (slots : Nat → Entry)
    {i n low high : Nat} {S : Set Slot} (ok : TableOk A t place)
    (listed : Listed t place c like slots i (i + n) low high S) (here : ∀ x ∈ S, place x = q) :
    ∃ place', TableOk A (t.drain passes put slots i n).1 place' ∧
      t.SameKinds (t.drain passes put slots i n).1 ∧ (∀ x ∈ S, place' x = p) ∧
      ∀ x ∉ S, place' x = place x := by
  induction n generalizing i t place low S with
  | zero =>
      have none : S = ∅ := listed.segment.empty_iff.mpr (by
        have := listed.after
        have := listed.before
        omega)
      exact ⟨place, ok, .refl t, by simp [none], fun x _ => rfl⟩
  | succ n inductionHypothesis =>
      have bounds := And.intro listed.after listed.before
      unfold Table.drain
      by_cases mine : low = i ∧ low < high
      · -- the first of the slots that are still listed
        obtain ⟨rfl, long⟩ := mine
        have mem : (slots low).place ∈ S := listed.segment.mem (Nat.le_refl _) long
        have placed : place (slots low).place = q := here _ mem
        have passed : passes t (slots low) = true := by
          refine (drains.check ok _).mpr ⟨drains.cls ok _ placed, ?_⟩
          rw [placed]
          exact drains.own
        have moved := drains.move ok _ placed
        have kinds := Table.SameKinds.setRegion
          (drains.kind (t.region (slots low).place.region) (slots low).place.index)
        have rest := listed.segment.dropFirst long
        have elsewhere {x : Slot} (other : x ≠ (slots low).place) :
            Function.update place (slots low).place p x = place x :=
          Function.update_of_ne other _ _
        obtain ⟨place', ok', kinds', inside, outside⟩ :=
          @inductionHypothesis _ _ (low + 1) (low + 1) _ moved
            { segment := rest
              after := Nat.le_refl _
              before := by omega
              stale := fun j above below out => by
                have fails := listed.stale j (by omega) (by omega) (by omega)
                have other : (slots j).place ≠ (slots low).place := fun same =>
                  fails (by
                    rw [same, placed]
                    exact ⟨drains.cls ok _ placed, drains.own⟩)
                rw [kinds.class_eq, elsewhere other]
                exact fails }
            fun x mem => by
              rw [elsewhere mem.2]
              exact here x mem.1
        rw [if_pos passed]
        refine ⟨place', ok', kinds.trans kinds', fun x mem => ?_, fun x out => ?_⟩
        · by_cases same : x = (slots low).place
          · subst same
            rw [outside _ fun mem => mem.2 rfl, Function.update_self]
          · exact inside x ⟨mem, same⟩
        · have other : x ≠ (slots low).place := fun same => out (same ▸ mem)
          rw [outside x fun mem => out mem.1]
          exact elsewhere other
      · -- an entry around them
        have fails : passes t (slots i) ≠ true := fun passed =>
          listed.stale i (Nat.le_refl _) (by omega) (by omega) ((drains.check ok _).mp passed)
        rw [if_neg fails]
        by_cases gone : high ≤ low
        · have none : S = ∅ := listed.segment.empty_iff.mpr gone
          subst none
          refine @inductionHypothesis _ _ (i + 1) (i + 1 + n) _ ok
            { segment := ?_
              after := by omega
              before := by omega
              stale := fun j above below _ => listed.stale j (by omega) (by omega) (by omega) } here
          have := @Segment.empty _ (fun i => (slots i).place) (i + 1 + n) high (by omega)
          exact this
        · exact inductionHypothesis (i := i + 1) ok
            { segment := listed.segment
              after := by omega
              before := by omega
              stale := fun j above below out => listed.stale j (by omega) (by omega) out } here

end Drains

/-- The entries fail the check as before where fewer slots are like those of
the class. -/
theorem Listed.congr {c : Nat} {like : Place T → Prop} {slots : Nat → Entry}
    {i stop low high : Nat} {S : Set Slot} {place' : Slot → Place T}
    (listed : Listed t place c like slots i stop low high S) (kinds : t.SameKinds t')
    (fewer : ∀ x, like (place' x) → like (place x)) :
    Listed t' place' c like slots i stop low high S :=
  { listed with
    stale := fun j above below out => by
      rw [kinds.class_eq]
      exact fun here => listed.stale j above below out ⟨here.1, fewer _ here.2⟩ }

/-! ## Whole caches -/

section Caches

variable [DecidableEq T]

/-- Where a slot goes when the caches of `gone` are drained below class `n`;
`refills` is the class of a cache whose count its refill has not stored yet. -/
def Place.drained (gone : List T) (refills : T → Option Nat) (n : Nat) : Place T → Place T
  | .cached u c => if u ∈ gone ∧ refills u ≠ some c ∧ c < n then .free else .cached u c
  | .released u c => if u ∈ gone ∧ c < n then .queued else .released u c
  | p => p

namespace Place

variable {gone : List T} {refills : T → Option Nat} {n : Nat} {p : Place T}

theorem drained_claimed (claimed : (p.drained gone refills n).Claimed) : p.Claimed := by
  cases p with
  | cached u c =>
      dsimp only [drained] at claimed
      split_ifs at claimed <;> exact claimed.elim
  | released | retiring => trivial
  | _ => exact claimed

theorem drained_loose (loose : (p.drained gone refills n).Loose) : p.Loose := by
  cases p with
  | released u c =>
      dsimp only [drained] at loose
      split_ifs at loose <;> exact loose.elim
  | cached | taken => trivial
  | _ => exact loose

theorem drained_cons (u : T) :
    p.drained (u :: gone) refills n = (p.drained [u] refills n).drained gone refills n := by
  cases p with
  | cached v c =>
      unfold drained
      by_cases same : v = u <;> by_cases refill : refills v ≠ some c ∧ c < n <;>
        simp [same, refill]
      all_goals grind
  | released v c =>
      unfold drained
      by_cases same : v = u <;> by_cases below : c < n <;> simp [same, below]
  | _ => rfl

theorem drained_eq_cached {u : T} {c : Nat} : p.drained gone refills n = .cached u c ↔
    p = .cached u c ∧ ¬ (u ∈ gone ∧ refills u ≠ some c ∧ c < n) := by
  cases p with
  | cached v c' =>
      dsimp only [drained]
      split_ifs with leaves
      · refine ⟨fun here => (by cases here), fun here => ?_⟩
        obtain ⟨rfl, rfl⟩ := Place.cached.inj here.1
        exact absurd leaves here.2
      · refine ⟨fun here => ⟨here, ?_⟩, fun here => here.1⟩
        obtain ⟨rfl, rfl⟩ := Place.cached.inj here
        exact leaves
  | released v c' =>
      dsimp only [drained]
      split_ifs <;> simp
  | _ => simp [drained]

theorem drained_eq_released {u : T} {c : Nat} : p.drained gone refills n = .released u c ↔
    p = .released u c ∧ ¬ (u ∈ gone ∧ c < n) := by
  cases p with
  | released v c' =>
      dsimp only [drained]
      split_ifs with leaves
      · refine ⟨fun here => (by cases here), fun here => ?_⟩
        obtain ⟨rfl, rfl⟩ := Place.released.inj here.1
        exact absurd leaves here.2
      · refine ⟨fun here => ⟨here, ?_⟩, fun here => here.1⟩
        obtain ⟨rfl, rfl⟩ := Place.released.inj here
        exact leaves
  | cached v c' =>
      dsimp only [drained]
      split_ifs <;> simp
  | _ => simp [drained]

theorem drained_eq_free : p.drained gone refills n = .free ↔
    p = .free ∨ ∃ u c, p = .cached u c ∧ u ∈ gone ∧ refills u ≠ some c ∧ c < n := by
  cases p with
  | cached v c =>
      dsimp only [drained]
      split_ifs with leaves
      · exact ⟨fun _ => .inr ⟨v, c, rfl, leaves⟩, fun _ => rfl⟩
      · refine ⟨fun here => (by cases here), ?_⟩
        rintro (here | ⟨u, c', here, goes⟩)
        · cases here
        · obtain ⟨rfl, rfl⟩ := Place.cached.inj here
          exact absurd goes leaves
  | released v c =>
      dsimp only [drained]
      split_ifs <;> simp
  | _ => simp [drained]

theorem drained_eq_queued : p.drained gone refills n = .queued ↔
    p = .queued ∨ ∃ u c, p = .released u c ∧ u ∈ gone ∧ c < n := by
  cases p with
  | released v c =>
      dsimp only [drained]
      split_ifs with leaves
      · exact ⟨fun _ => .inr ⟨v, c, rfl, leaves⟩, fun _ => rfl⟩
      · refine ⟨fun here => (by cases here), ?_⟩
        rintro (here | ⟨u, c', here, goes⟩)
        · cases here
        · obtain ⟨rfl, rfl⟩ := Place.released.inj here
          exact absurd goes leaves
  | cached v c =>
      dsimp only [drained]
      split_ifs <;> simp
  | _ => simp [drained]

/-- A drain moves no slot to or from a place that is neither a cache nor a
list. -/
theorem drained_iff {q : Place T} (cached : ∀ u c, q ≠ .cached u c)
    (released : ∀ u c, q ≠ .released u c) (free : q ≠ .free) (queued : q ≠ .queued) :
    p.drained gone refills n = q ↔ p = q := by
  cases q with
  | cached u c => exact absurd rfl (cached u c)
  | released u c => exact absurd rfl (released u c)
  | free => exact absurd rfl free
  | queued => exact absurd rfl queued
  | _ =>
      cases p with
      | cached | released =>
          dsimp only [drained]
          split_ifs <;> simp
      | _ => rfl

/-- The slots of a thread whose cache is not drained stay where they are. -/
theorem drained_owned {q : Place T} {u : T} (owner : q.owner = some u) (stays : u ∉ gone) :
    p.drained gone refills n = q ↔ p = q := by
  cases q with
  | cached v c =>
      obtain rfl := Option.some.inj owner
      rw [drained_eq_cached]
      exact and_iff_left fun leaves => stays leaves.1
  | released v c =>
      obtain rfl := Option.some.inj owner
      rw [drained_eq_released]
      exact and_iff_left fun leaves => stays leaves.1
  | taken | retiring => exact drained_iff (by simp) (by simp) (by simp) (by simp)
  | fresh | free | live | queued => cases owner

end Place

/-- A cache that a drain may be given: of each class it holds the thread's slots
in one part of its array, and what is around them fails the checks. -/
structure Orderly (A : Arena) (t : Table) (place : Slot → Place T) (u : T)
    (refills : T → Option Nat) (k : ThreadCache) : Prop where
  alloc : ∀ c, c < A.cachedClasses → ∃ low high,
    Listed t place c Place.Loose (k.alloc c).slots 0 (k.alloc c).count low high
      {x | place x = .cached u c ∧ refills u ≠ some c}
  release : ∀ c, c < A.cachedClasses → ∃ low high,
    Listed t place c Place.Claimed (k.release c).slots 0 (k.release c).count low high
      {x | place x = .released u c}

namespace Heap

theorem flushReleases_table (A : Arena) (h : Heap) (released : SlotCache) (c : Nat) :
    (h.flushReleases A released c).table =
      (h.table.drain (fun t e => t.Releasable c e) Region.enqueue released.slots 0
        released.count).1 := by
  unfold flushReleases
  dsimp only
  split_ifs <;> rfl

theorem drainCache_table (A : Arena) (h : Heap) (k : ThreadCache) :
    (h.drainCache A k).table =
      ((List.range A.cachedClasses).foldl
        (fun h c => (h.flushReleases A (k.release c) c).returnSlots (k.alloc c) c) h).table := by
  unfold drainCache
  dsimp only
  split_ifs <;> rfl

end Heap

variable {h : Heap} {u : T} {refills : T → Option Nat} {k : ThreadCache}

/-- A drain, class by class. -/
theorem drain_below (ok : TableOk A h.table place) (orderly : Orderly A h.table place u refills k)
    {n : Nat} (served : n ≤ A.cachedClasses) :
    ∃ place', TableOk A ((List.range n).foldl
        (fun h c => (h.flushReleases A (k.release c) c).returnSlots (k.alloc c) c) h).table place' ∧
      h.table.SameKinds ((List.range n).foldl
        (fun h c => (h.flushReleases A (k.release c) c).returnSlots (k.alloc c) c) h).table ∧
      ∀ x, place' x = (place x).drained [u] refills n := by
  induction n with
  | zero =>
      refine ⟨place, ok, .refl _, fun x => ?_⟩
      cases place x <;> simp [Place.drained]
  | succ n inductionHypothesis =>
      obtain ⟨place₁, ok₁, kinds₁, moved₁⟩ := inductionHypothesis (by omega)
      rw [List.range_succ, List.foldl_append, List.foldl_cons, List.foldl_nil]
      generalize (List.range n).foldl
        (fun h c => (h.flushReleases A (k.release c) c).returnSlots (k.alloc c) c) h = h₁ at *
      obtain ⟨low, high, released⟩ := orderly.release n (by omega)
      obtain ⟨low', high', available⟩ := orderly.alloc n (by omega)
      -- the slots of class `n` are where they were
      have here (x : Slot) (mem : place x = .released u n) : place₁ x = .released u n := by
        rw [moved₁, mem]
        simp [Place.drained]
      have here' (x : Slot) (mem : place x = .cached u n) : place₁ x = .cached u n := by
        rw [moved₁, mem]
        simp [Place.drained]
      obtain ⟨place₂, ok₂, kinds₂, inside₂, outside₂⟩ :=
        (flush_drains A u n).drain (k.release n).slots ok₁
          (n := (k.release n).count) (S := {x | place x = .released u n}) (by
            rw [Nat.zero_add]
            exact released.congr kinds₁ fun x claimed => by
              rw [moved₁] at claimed
              exact Place.drained_claimed claimed) fun x mem => here x mem
      rw [← Heap.flushReleases_table A] at ok₂ kinds₂
      have still (x : Slot) (mem : place x = .cached u n) : place₂ x = .cached u n := by
        rw [outside₂ x fun released => by
          have both := mem.symm.trans released
          exact absurd both (by simp)]
        exact here' x mem
      obtain ⟨place₃, ok₃, kinds₃, inside₃, outside₃⟩ :=
        (return_drains A u n).drain (k.alloc n).slots ok₂
          (n := (k.alloc n).count) (S := {x | place x = .cached u n ∧ refills u ≠ some n}) (by
            rw [Nat.zero_add]
            refine available.congr (kinds₁.trans kinds₂) fun x loose => ?_
            by_cases mem : place x = .released u n
            · rw [inside₂ x mem] at loose
              exact loose.elim
            · rw [outside₂ x mem, moved₁] at loose
              exact Place.drained_loose loose) fun x mem => still x mem.1
      refine ⟨place₃, ok₃, (kinds₁.trans kinds₂).trans kinds₃, fun x => ?_⟩
      by_cases mem : place x = .cached u n ∧ refills u ≠ some n
      · rw [inside₃ x mem, mem.1]
        simp [Place.drained, mem.2]
      · rw [outside₃ x mem]
        by_cases mem' : place x = .released u n
        · rw [inside₂ x mem', mem']
          simp [Place.drained]
        · rw [outside₂ x mem', moved₁]
          cases placed : place x with
          | cached v c =>
              have other : ¬ (v = u ∧ refills v ≠ some c ∧ c = n) := by
                rintro ⟨rfl, refill, rfl⟩
                exact mem ⟨placed, refill⟩
              unfold Place.drained
              simp only [List.mem_singleton]
              congr 1
              grind
          | released v c =>
              have other : ¬ (v = u ∧ c = n) := by
                rintro ⟨rfl, rfl⟩
                exact mem' placed
              unfold Place.drained
              simp only [List.mem_singleton]
              congr 1
              grind
          | _ => rfl

theorem drainCache_drained (ok : TableOk A h.table place)
    (orderly : Orderly A h.table place u refills k) :
    ∃ place', TableOk A (h.drainCache A k).table place' ∧
      h.table.SameKinds (h.drainCache A k).table ∧
      ∀ x, place' x = (place x).drained [u] refills A.cachedClasses := by
  rw [Heap.drainCache_table]
  exact drain_below ok orderly (Nat.le_refl _)

/-- Another thread's cache is drained first. -/
theorem Orderly.congr {place' : Slot → Place T} {v : T} {n : Nat}
    (orderly : Orderly A t place u refills k) (kinds : t.SameKinds t') (other : u ≠ v)
    (moved : ∀ x, place' x = (place x).drained [v] refills n) :
    Orderly A t' place' u refills k := by
  have iff {q : Place T} (owner : q.owner = some u) (x : Slot) : place' x = q ↔ place x = q := by
    rw [moved]
    exact Place.drained_owned owner (by simpa using other)
  constructor
  · intro c served
    obtain ⟨low, high, listed⟩ := orderly.alloc c served
    refine ⟨low, high, ?_⟩
    simp only [iff (q := .cached u c) rfl]
    exact listed.congr kinds fun x loose => by
      rw [moved] at loose
      exact Place.drained_loose loose
  · intro c served
    obtain ⟨low, high, listed⟩ := orderly.release c served
    refine ⟨low, high, ?_⟩
    simp only [iff (q := .released u c) rfl]
    exact listed.congr kinds fun x claimed => by
      rw [moved] at claimed
      exact Place.drained_claimed claimed

/-- Every cache of a list without repetitions is drained. -/
theorem drainCaches_drained {gone : List T} {cache : T → ThreadCache}
    (ok : TableOk A h.table place) (distinct : gone.Nodup)
    (orderly : ∀ u ∈ gone, Orderly A h.table place u refills (cache u)) :
    ∃ place', TableOk A (gone.foldl (fun h u => h.drainCache A (cache u)) h).table place' ∧
      h.table.SameKinds (gone.foldl (fun h u => h.drainCache A (cache u)) h).table ∧
      ∀ x, place' x = (place x).drained gone refills A.cachedClasses := by
  induction gone generalizing h place with
  | nil =>
      refine ⟨place, ok, .refl _, fun x => ?_⟩
      cases place x <;> simp [Place.drained]
  | cons u gone inductionHypothesis =>
      obtain ⟨out, distinct⟩ := List.nodup_cons.mp distinct
      obtain ⟨place₁, ok₁, kinds₁, moved₁⟩ :=
        drainCache_drained ok (orderly u List.mem_cons_self)
      obtain ⟨place₂, ok₂, kinds₂, moved₂⟩ :=
        inductionHypothesis ok₁ distinct fun v mem =>
          (orderly v (List.mem_cons_of_mem _ mem)).congr kinds₁
            (ne_of_mem_of_not_mem mem out) moved₁
      refine ⟨place₂, ok₂, kinds₁.trans kinds₂, fun x => ?_⟩
      rw [moved₂, moved₁]
      exact (Place.drained_cons u).symm

end Caches

end WeaveC.Alloc
