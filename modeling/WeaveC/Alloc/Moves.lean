import WeaveC.Alloc.Place

/-!
# How slots move

One lemma for each way a critical section or a store to a slot word moves a
slot from one place to another.
-/

namespace WeaveC.Alloc

open WeaveC.Library

variable {T : Type}

/-! ## Places of one region -/

section Region

variable {A : Arena} {R : Region} {place : Nat → Place T} {s : Nat} {p : Place T}

namespace Region

@[simp] theorem setWord_words (R : Region) (s : Nat) (w : Word) :
    (R.setWord s w).words = Function.update R.words s w := rfl

@[simp] theorem setWord_bump (R : Region) (s : Nat) (w : Word) :
    (R.setWord s w).bump = R.bump := rfl

@[simp] theorem setWord_entry (R : Region) (s : Nat) (w : Word) :
    (R.setWord s w).entry = R.entry := rfl

theorem enqueue_behind {R : Region} (some : R.deadTail ≠ 0) (s : Nat) :
    R.enqueue s =
      { (R.setWord s ⟨0, .dead⟩).setWord (R.deadTail - 1) ⟨s + 1, .dead⟩ with
        deadTail := s + 1 } := by
  have some' : (R.setWord s ⟨0, .dead⟩).deadTail ≠ 0 := some
  simp only [enqueue, if_pos some']
  rfl

theorem enqueue_first {R : Region} (none : R.deadTail = 0) (s : Nat) :
    R.enqueue s =
      { R.setWord s ⟨0, .dead⟩ with deadHead := s + 1, deadTail := s + 1 } := by
  have none' : ¬ (R.setWord s ⟨0, .dead⟩).deadTail ≠ 0 := fun some => some none
  simp only [enqueue, if_neg none']

theorem setWord_nextOf (R : Region) (s : Nat) (w : Word) :
    (R.setWord s w).nextOf = Function.update R.nextOf s w.value := by
  funext i
  by_cases same : i = s
  · subst same
    simp [nextOf]
  · simp [nextOf, same]

end Region

theorem arena_committed (A : Arena) : DataChunk ∣ A.regionBytes := by
  have powers : DataChunk = 2 ^ 20 ∧ A.regionBytes = 2 ^ A.shift := by
    simp [DataChunk, Arena.regionBytes, Nat.shiftLeft_eq]
  rw [powers.1, powers.2]
  exact Nat.pow_dvd_pow 2 (by rcases A.width with width | width <;> omega)

/-- What a successful commit has made accessible. -/
theorem commit_spec {grant : Nat → Bool} {start committed end' limit committed' : Nat}
    (granted : commit A grant start committed end' DataChunk limit = some committed')
    (chunks : DataChunk ∣ committed) (chunks' : DataChunk ∣ limit) (short : committed ≤ limit)
    (fits : end' ≤ limit) :
    committed ≤ committed' ∧ end' ≤ committed' ∧ committed' ≤ limit ∧ DataChunk ∣ committed' := by
  unfold commit at granted
  split_ifs at granted with enough allowed
  · obtain rfl := Option.some.inj granted
    exact ⟨Nat.le_refl _, enough, short, chunks⟩
  · have page : A.page ≤ DataChunk :=
      (Nat.le_of_dvd (by decide) A.pageBound).trans (by decide)
    have chunk : max DataChunk A.page = DataChunk := Nat.max_eq_left page
    rw [chunk] at granted
    have target := Option.some.inj granted
    have positive : 0 < DataChunk := by decide
    have reached : end' ≤ (end' + DataChunk - 1) / DataChunk * DataChunk := by
      have := Nat.lt_div_mul_add (a := end' + DataChunk - 1) positive
      omega
    rw [← target]
    refine ⟨?_, ?_, ?_, ?_⟩
    · omega
    · omega
    · omega
    · rcases min_choice ((end' + DataChunk - 1) / DataChunk * DataChunk) limit with same | same
      · rw [same]
        exact Nat.dvd_mul_left _ _
      · rw [same]
        exact chunks'

namespace RegionOk

theorem lt_bump (ok : RegionOk A R place) (used : place s ≠ .fresh) : s < R.bump := by
  by_contra above
  exact used ((ok.fresh s).mpr (by omega))

/-- A region's accessible part may grow. -/
theorem grow (ok : RegionOk A R place) {committed metaCommitted : Nat}
    (more : R.committed ≤ committed) (short : committed ≤ A.regionBytes)
    (chunks : DataChunk ∣ committed) :
    RegionOk A { R with committed, metaCommitted } place :=
  { ok with
    extent := ok.extent.trans more
    committed := short
    chunks }

private theorem update_iff {q : Place T} (other : p ≠ q) (other' : place s ≠ q) (i : Nat) :
    Function.update place s p i = q ↔ place i = q := by
  by_cases same : i = s
  · subst same
    simp [other, other']
  · rw [Function.update_of_ne same]

private theorem update_fresh (used : place s ≠ .fresh) (used' : p ≠ .fresh) {bump : Nat}
    (fresh : ∀ i, place i = .fresh ↔ bump ≤ i) (i : Nat) :
    Function.update place s p i = .fresh ↔ bump ≤ i :=
  (update_iff used' used i).trans (fresh i)

private theorem update_word {words : Nat → Word} {w : Word}
    (ok : ∀ i, (place i).WordOk (words i)) (word : p.WordOk w) (i : Nat) :
    (Function.update place s p i).WordOk (Function.update words s w i) := by
  by_cases same : i = s
  · subst same
    simpa using word
  · simpa [same] using ok i

/-- A slot on none of the region's lists, before or after. -/
theorem setWord (ok : RegionOk A R place) {w : Word}
    (used : place s ≠ .fresh) (unlisted : place s ≠ .free) (unqueued : place s ≠ .queued)
    (used' : p ≠ .fresh) (unlisted' : p ≠ .free) (unqueued' : p ≠ .queued)
    (word : p.WordOk w) : RegionOk A (R.setWord s w) (Function.update place s p) := by
  obtain ⟨l, chain, members⟩ := ok.free
  obtain ⟨q, queue, members'⟩ := ok.queue
  refine { ok with free := ?_, queue := ?_, word := ?_, fresh := ?_ }
  · refine ⟨l, ?_, fun i => (members i).trans (update_iff unlisted' unlisted i).symm⟩
    rw [Region.setWord_nextOf]
    exact chain.update (mt (members s).mp unlisted)
  · refine ⟨q, ?_, fun i => (members' i).trans (update_iff unqueued' unqueued i).symm⟩
    rw [Region.setWord_nextOf]
    exact queue.update (mt (members' s).mp unqueued)
  · exact update_word ok.word word
  · exact update_fresh used used' ok.fresh

theorem handed_ne (handed : p.Handed) : p ≠ .fresh ∧ p ≠ .free ∧ p ≠ .queued := by
  cases p <;> simp_all [Place.Handed]

theorem claimed_ne (claimed : p.Claimed) : p ≠ .fresh ∧ p ≠ .free ∧ p ≠ .queued := by
  cases p <;> simp_all [Place.Claimed]

/-- The first slot of the free list. -/
theorem popFree (ok : RegionOk A R place) (some : R.freeHead ≠ 0) :
    place (R.freeHead - 1) = .free ∧
      ∀ p : Place T, p.Handed →
        RegionOk A { R with freeHead := (R.words (R.freeHead - 1)).value }
          (Function.update place (R.freeHead - 1) p) := by
  obtain ⟨l, chain, members⟩ := ok.free
  have distinct := chain.nodup
  obtain ⟨l', rfl, rest⟩ := chain.pop some
  have here : place (R.freeHead - 1) = .free := (members _).mp (by simp)
  refine ⟨here, fun p handed => ?_⟩
  have other := handed_ne handed
  have state : (R.words (R.freeHead - 1)).state = .free := by
    have := ok.word (R.freeHead - 1)
    rwa [here] at this
  obtain ⟨q, queue, members'⟩ := ok.queue
  refine { ok with free := ?_, queue := ?_, word := ?_, fresh := ?_ }
  · refine ⟨l', rest, fun i => ?_⟩
    by_cases same : i = R.freeHead - 1
    · subst same
      simpa [other.2.1] using (List.nodup_cons.mp distinct).1
    · rw [Function.update_of_ne same, ← members i]
      simp [same]
  · exact ⟨q, queue, fun i => (members' i).trans
      (update_iff other.2.2 (by simp [here]) i).symm⟩
  · intro i
    have := update_word (s := R.freeHead - 1) ok.word
      ((Place.WordOk.handed handed).mpr (.inl state)) i
    rwa [Function.update_eq_self] at this
  · exact update_fresh (by simp [here]) other.1 ok.fresh

/-- The next slot the region has not handed out. -/
theorem popFresh (ok : RegionOk A R place) (room : R.bump < R.entry.capacity) {committed : Nat}
    (metaCommitted : Nat) (reached : (R.bump + 1) * R.entry.size ≤ committed)
    (short : committed ≤ A.regionBytes) (chunks : DataChunk ∣ committed) :
    place R.bump = .fresh ∧
      ∀ p : Place T, p.Handed →
        RegionOk A { R with committed, metaCommitted, bump := R.bump + 1 }
          (Function.update place R.bump p) := by
  have here : place R.bump = .fresh := (ok.fresh _).mpr (Nat.le_refl _)
  refine ⟨here, fun p handed => ?_⟩
  have other := handed_ne handed
  have state : (R.words R.bump).state = .never := by
    have := ok.word R.bump
    rw [here] at this
    rw [show R.words R.bump = Word.never from this]
    rfl
  obtain ⟨l, chain, members⟩ := ok.free
  obtain ⟨q, queue, members'⟩ := ok.queue
  refine
    { free := ?_
      queue := ?_
      word := ?_
      fresh := ?_
      bump := room
      capacity := ok.capacity
      whole := ok.whole
      extent := reached
      committed := short
      chunks }
  · exact ⟨l, chain, fun i => (members i).trans (update_iff other.2.1 (by simp [here]) i).symm⟩
  · exact ⟨q, queue, fun i => (members' i).trans (update_iff other.2.2 (by simp [here]) i).symm⟩
  · intro i
    have := update_word (s := R.bump) ok.word
      ((Place.WordOk.handed handed).mpr (.inr state)) i
    rwa [Function.update_eq_self] at this
  · intro i
    by_cases same : i = R.bump
    · subst same
      simp [other.1]
    · rw [Function.update_of_ne same, ok.fresh i]
      simp only
      omega

/-- `returnSlots`: a cached slot goes back to the free list. -/
theorem giveBack (ok : RegionOk A R place) (handed : (place s).Handed) :
    RegionOk A (R.giveBack s) (Function.update place s .free) := by
  have other := handed_ne handed
  obtain ⟨l, chain, members⟩ := ok.free
  obtain ⟨q, queue, members'⟩ := ok.queue
  have links : (R.giveBack s).nextOf = Function.update R.nextOf s R.freeHead :=
    R.setWord_nextOf s ⟨R.freeHead, .free⟩
  refine { ok with free := ?_, queue := ?_, word := ?_, fresh := ?_ }
  · refine ⟨s :: l, ?_, fun i => ?_⟩
    · rw [links]
      exact chain.push (mt (members s).mp other.2.1)
    · by_cases same : i = s
      · simp [same]
      · rw [Function.update_of_ne same, ← members i]
        simp [same]
  · refine ⟨q, ?_, fun i => (members' i).trans (update_iff (by simp) other.2.2 i).symm⟩
    rw [links]
    exact queue.update (mt (members' s).mp other.2.2)
  · exact update_word ok.word rfl
  · exact update_fresh other.1 (by simp) ok.fresh

/-- A claimed slot goes to the end of the quarantine queue. -/
theorem enqueue (ok : RegionOk A R place) (claimed : (place s).Claimed) :
    RegionOk A (R.enqueue s) (Function.update place s .queued) := by
  have other := claimed_ne claimed
  obtain ⟨l, chain, members⟩ := ok.free
  obtain ⟨q, queue, members'⟩ := ok.queue
  have outside : s ∉ q := mt (members' s).mp other.2.2
  have unlisted : s ∉ l := mt (members s).mp other.2.1
  have below := ok.lt_bump other.1
  have bound := ok.bump
  have bound' := ok.capacity
  have queued (i : Nat) : i ∈ q ++ [s] ↔ Function.update place s .queued i = .queued := by
    by_cases same : i = s
    · simp [same]
    · rw [Function.update_of_ne same, ← members' i]
      simp [same]
  by_cases none : R.deadTail = 0
  · rw [Region.enqueue_first none]
    rw [none] at queue
    refine { ok with free := ?_, queue := ?_, word := ?_, fresh := ?_ }
    · refine ⟨l, ?_, fun i => (members i).trans (update_iff (by simp) other.2.1 i).symm⟩
      change Chain (R.setWord s ⟨0, .dead⟩).nextOf _ _
      rw [Region.setWord_nextOf]
      exact chain.update unlisted
    · refine ⟨q ++ [s], ?_, queued⟩
      change Queue (R.setWord s ⟨0, .dead⟩).nextOf _ _ _
      rw [Region.setWord_nextOf]
      exact queue.enqueue_first s
    · exact update_word ok.word ⟨rfl, by simp [Word.cachedDead]⟩
    · exact update_fresh other.1 (by simp) ok.fresh
  · rw [Region.enqueue_behind none]
    have last := queue.tail_mem none
    have ne : R.deadTail - 1 ≠ s := ne_of_mem_of_not_mem last outside
    have unlisted' : R.deadTail - 1 ∉ l := by
      intro mem
      have free := (members _).mp mem
      have queued := (members' _).mp last
      rw [free] at queued
      exact absurd queued (by simp)
    refine { ok with free := ?_, queue := ?_, word := ?_, fresh := ?_ }
    · refine ⟨l, ?_, fun i => (members i).trans (update_iff (by simp) other.2.1 i).symm⟩
      change Chain ((R.setWord s ⟨0, .dead⟩).setWord (R.deadTail - 1) ⟨s + 1, .dead⟩).nextOf _ _
      rw [Region.setWord_nextOf, Region.setWord_nextOf]
      exact (chain.update unlisted).update unlisted'
    · refine ⟨q ++ [s], ?_, queued⟩
      change Queue ((R.setWord s ⟨0, .dead⟩).setWord (R.deadTail - 1) ⟨s + 1, .dead⟩).nextOf _ _ _
      rw [Region.setWord_nextOf, Region.setWord_nextOf]
      exact queue.enqueue none outside
    · intro i
      have first := update_word (s := s) (p := .queued) (w := ⟨0, .dead⟩) ok.word
        ⟨rfl, by simp [Word.cachedDead]⟩ i
      change Place.WordOk _ (Function.update (Function.update R.words s ⟨0, .dead⟩)
        (R.deadTail - 1) ⟨s + 1, .dead⟩ i)
      by_cases same : i = R.deadTail - 1
      · subst same
        rw [Function.update_of_ne ne, Function.update_self, (members' _).mp last]
        refine ⟨rfl, ?_⟩
        simp only [Word.cachedDead]
        omega
      · rwa [Function.update_of_ne same]
    · exact update_fresh other.1 (by simp) ok.fresh

end RegionOk

/-! ## Handing out -/

/-- What a critical section leaves of a region besides its lists. -/
structure Region.SameKind (R R' : Region) : Prop where
  entry : R'.entry = R.entry
  regionClass : R'.regionClass = R.regionClass
  regionNext : R'.regionNext = R.regionNext

theorem Region.SameKind.refl (R : Region) : R.SameKind R := ⟨rfl, rfl, rfl⟩

theorem Region.SameKind.trans {R R' R'' : Region} (first : R.SameKind R')
    (second : R'.SameKind R'') : R.SameKind R'' :=
  ⟨second.entry.trans first.entry, second.regionClass.trans first.regionClass,
    second.regionNext.trans first.regionNext⟩

theorem Region.sameKind_setWord (R : Region) (s : Nat) (w : Word) :
    R.SameKind (R.setWord s w) := ⟨rfl, rfl, rfl⟩

theorem Region.sameKind_giveBack (R : Region) (s : Nat) : R.SameKind (R.giveBack s) :=
  ⟨rfl, rfl, rfl⟩

theorem Region.sameKind_enqueue (R : Region) (s : Nat) : R.SameKind (R.enqueue s) := by
  by_cases none : R.deadTail = 0
  · rw [Region.enqueue_first none]
    exact ⟨rfl, rfl, rfl⟩
  · rw [Region.enqueue_behind none]
    exact ⟨rfl, rfl, rfl⟩

/-- The ways `popSlot` can go: off the free list; nothing, when the region is
full or the system refuses; or the next fresh slot. -/
inductive Pops (A : Arena) (region : Nat) (R : Region) (shadow : Runtime.Shadow) :
    Option Entry × Region × Runtime.Shadow → Prop where
  | listed : R.freeHead ≠ 0 →
      Pops A region R shadow
        (some ⟨region, R.freeHead - 1, true⟩,
          { R with freeHead := (R.words (R.freeHead - 1)).value }, shadow)
  | nothing (grant : Nat → Bool) (committed : Nat) :
      (committed = R.committed ∨ R.bump < R.entry.capacity ∧
        commit A grant (A.regionStart region) R.committed ((R.bump + 1) * R.entry.size) DataChunk
          A.regionBytes = some committed) →
      Pops A region R shadow (none, { R with committed }, shadow)
  | fresh (grant : Nat → Bool) (committed metaCommitted : Nat) :
      R.bump < R.entry.capacity →
      commit A grant (A.regionStart region) R.committed ((R.bump + 1) * R.entry.size) DataChunk
        A.regionBytes = some committed →
      Pops A region R shadow
        (some ⟨region, R.bump, false⟩, { R with committed, metaCommitted, bump := R.bump + 1 },
          poisonFresh A region R.entry R.committed committed shadow)

theorem popSlot_pops (A : Arena) (grant : Nat → Bool) (region : Nat) (R : Region)
    (shadow : Runtime.Shadow) : Pops A region R shadow (popSlot A grant region R shadow) := by
  unfold popSlot
  by_cases listed : R.freeHead ≠ 0
  · rw [if_pos listed]
    exact .listed listed
  · rw [if_neg listed]
    simp only
    by_cases full : R.entry.capacity ≤ R.bump
    · rw [if_pos full]
      exact .nothing grant R.committed (.inl rfl)
    · rw [if_neg full]
      have room : R.bump < R.entry.capacity := by omega
      cases data : commit A grant (A.regionStart region) R.committed
          ((R.bump + 1) * R.entry.size) DataChunk A.regionBytes with
      | none => exact .nothing grant R.committed (.inl rfl)
      | some committed =>
          simp only
          cases commit A grant (A.wordStart region) R.metaCommitted ((R.bump + 1) * 4) MetaChunk
              (A.regionBytes >>> 2) with
          | none => exact .nothing grant committed (.inr ⟨room, data⟩)
          | some metaCommitted => exact .fresh grant committed metaCommitted room data

/-- What `popSlot` does to a region's places. -/
structure Popped (A : Arena) (region : Nat) (place : Nat → Place T) (R R' : Region)
    (taken : Option Entry) : Prop where
  kind : R.SameKind R'
  none : taken = none → RegionOk A R' place
  some : ∀ e, taken = some e → e.region = region ∧
    (place e.slot = .free ∨ place e.slot = .fresh) ∧
    ∀ p : Place T, p.Handed → RegionOk A R' (Function.update place e.slot p)

namespace RegionOk

/-- A commit for the next fresh slot keeps the region's extent. -/
theorem committed_spec (ok : RegionOk A R place) {grant : Nat → Bool} {region committed : Nat}
    (room : R.bump < R.entry.capacity)
    (data : commit A grant (A.regionStart region) R.committed ((R.bump + 1) * R.entry.size)
      DataChunk A.regionBytes = some committed) :
    R.committed ≤ committed ∧ (R.bump + 1) * R.entry.size ≤ committed ∧
      committed ≤ A.regionBytes ∧ DataChunk ∣ committed :=
  commit_spec data ok.chunks (arena_committed A) ok.committed
    ((Nat.mul_le_mul_right _ room).trans ok.whole)

theorem pops (ok : RegionOk A R place) {region : Nat} {shadow : Runtime.Shadow}
    {result : Option Entry × Region × Runtime.Shadow} (pops : Pops A region R shadow result) :
    Popped A region place R result.2.1 result.1 := by
  cases pops with
  | listed listed =>
      obtain ⟨here, moved⟩ := ok.popFree listed
      refine ⟨⟨rfl, rfl, rfl⟩, by simp, ?_⟩
      rintro e ⟨⟩
      exact ⟨rfl, .inl here, moved⟩
  | nothing grant committed cause =>
      refine ⟨⟨rfl, rfl, rfl⟩, fun _ => ?_, by simp⟩
      rcases cause with rfl | ⟨room, data⟩
      · exact ok
      · obtain ⟨more, -, short, chunks⟩ := ok.committed_spec room data
        exact ok.grow more short chunks
  | fresh grant committed metaCommitted room data =>
      obtain ⟨-, reached, short, chunks⟩ := ok.committed_spec room data
      obtain ⟨here, moved⟩ := ok.popFresh room metaCommitted reached short chunks
      refine ⟨⟨rfl, rfl, rfl⟩, by simp, ?_⟩
      rintro e ⟨⟩
      exact ⟨rfl, .inr here, moved⟩

end RegionOk

/-- What `popRegion` does: every slot it takes was free or fresh, and moves to
the same place. -/
structure PoppedAll (A : Arena) (region : Nat) (place : Nat → Place T) (p : Place T)
    (R R' : Region) (es : List Entry) : Prop where
  kind : R.SameKind R'
  region : ∀ e ∈ es, e.region = region
  before : ∀ e ∈ es, place e.slot = .free ∨ place e.slot = .fresh
  distinct : (es.map Entry.slot).Nodup
  ok : RegionOk A R' fun i => if i ∈ es.map Entry.slot then p else place i

theorem popRegion_spec (handed : p.Handed) (grant : Nat → Bool) (region want : Nat)
    (ok : RegionOk A R place) (shadow : Runtime.Shadow) :
    PoppedAll A region place p R (popRegion A grant region want R shadow).2.1
      (popRegion A grant region want R shadow).1 := by
  induction want generalizing R place shadow with
  | zero =>
      exact ⟨.refl R, by simp [popRegion], by simp [popRegion], by simp [popRegion],
        by simpa [popRegion] using ok⟩
  | succ want inductionHypothesis =>
      have first := ok.pops (popSlot_pops A grant region R shadow)
      unfold popRegion
      generalize popSlot A grant region R shadow = result at first ⊢
      obtain ⟨taken, R₁, shadow₁⟩ := result
      cases taken with
      | none => exact ⟨first.kind, by simp, by simp, by simp, by simpa using first.none rfl⟩
      | some e =>
          obtain ⟨here, before, moved⟩ := first.some e rfl
          have rest := inductionHypothesis (moved p handed) shadow₁
          simp only
          generalize popRegion A grant region want R₁ shadow₁ = result at rest ⊢
          obtain ⟨es, R₂, shadow₂⟩ := result
          have other := RegionOk.handed_ne handed
          have new : e.slot ∉ es.map Entry.slot := by
            intro mem
            obtain ⟨e', mem', same⟩ := List.mem_map.mp mem
            have := rest.before e' mem'
            rw [same, Function.update_self] at this
            exact this.elim other.2.1 other.1
          refine ⟨first.kind.trans rest.kind, ?_, ?_, ?_, ?_⟩
          · simpa [here] using rest.region
          · intro e' mem
            rcases List.mem_cons.mp mem with rfl | mem
            · exact before
            · have := rest.before e' mem
              rwa [Function.update_of_ne] at this
              intro same
              exact new (same ▸ List.mem_map_of_mem mem)
          · exact List.nodup_cons.mpr ⟨new, rest.distinct⟩
          · convert rest.ok using 2 with i
            by_cases same : i = e.slot
            · subst same
              simp
            · simp [same]

/-! ## Recycling -/

/-- The place of a slot after a sweep of its region. -/
def recycled (recycle : Bool) (marks : Nat → Bool) (place : Nat → Place T) (s : Nat) : Place T :=
  match place s with
  | .queued => if recycle = true ∧ marks s = false then .free else .queued
  | p => p

theorem recycled_of_ne {recycle : Bool} {marks : Nat → Bool} (other : place s ≠ .queued) :
    recycled recycle marks place s = place s := by
  unfold recycled
  split
  · exact absurd (by assumption) other
  · rfl

theorem recycled_of_queued {recycle : Bool} {marks : Nat → Bool} (queued : place s = .queued) :
    recycled recycle marks place s = if recycle = true ∧ marks s = false then .free else .queued := by
  unfold recycled
  rw [queued]

/-- The lists while a region is recycled from its last slot: the slots from
`slot` on have been put on one of the two lists, in address order. -/
structure RecyclingOk (bump slot : Nat) (r : Recycling) (place : Nat → Place T) : Prop where
  free : ∃ l, Chain (fun s => (r.words s).value) r.freeHead l ∧ ∀ s, s ∈ l ↔ place s = .free
  kept : ∃ q,
    Queue (fun s => (r.words s).value) r.keptHead (if r.keptHead = 0 then 0 else r.deadTail) q ∧
      ∀ s, s ∈ q ↔ place s = .queued ∧ slot ≤ s
  word : ∀ s, (place s).WordOk (r.words s)
  bound : r.keptHead ≤ bump

namespace RecyclingOk

variable {bump slot : Nat} {r : Recycling}

private theorem update_value (words : Nat → Word) (s : Nat) (w : Word) :
    (fun i => (Function.update words s w i).value) =
      Function.update (fun i => (words i).value) s w.value := by
  funext i
  by_cases same : i = s
  · subst same
    simp
  · simp [same]

/-- A slot that is not queued is passed. -/
theorem skip (ok : RecyclingOk bump (slot + 1) r place) (other : place slot ≠ .queued) :
    RecyclingOk bump slot r place := by
  obtain ⟨q, queue, members⟩ := ok.kept
  refine { ok with kept := ⟨q, queue, fun s => (members s).trans ?_⟩ }
  constructor
  · rintro ⟨queued, above⟩
    exact ⟨queued, by omega⟩
  · rintro ⟨queued, above⟩
    have : s ≠ slot := fun same => other (same ▸ queued)
    exact ⟨queued, by omega⟩

/-- A queued slot that stays goes in front of the kept ones. -/
theorem keep (ok : RecyclingOk bump (slot + 1) r place) (queued : place slot = .queued)
    (below : slot < bump) (small : bump < Word.cachedDead) :
    RecyclingOk bump slot
      { r with
        deadTail := if r.keptHead = 0 then slot + 1 else r.deadTail
        words := Function.update r.words slot ⟨r.keptHead, .dead⟩
        keptHead := slot + 1 } place := by
  obtain ⟨l, chain, members⟩ := ok.free
  obtain ⟨q, queue, members'⟩ := ok.kept
  have outside : slot ∉ q := fun mem => by
    have := ((members' slot).mp mem).2
    omega
  have unlisted : slot ∉ l := fun mem => by
    have free := (members slot).mp mem
    rw [queued] at free
    exact absurd free (by simp)
  have bound := ok.bound
  refine ⟨⟨l, ?_, members⟩, ⟨slot :: q, ?_, ?_⟩, ?_, below⟩
  · simp only [update_value]
    exact chain.update unlisted
  · have pushed := queue.push outside
    simp only [update_value, Nat.succ_ne_zero, if_false]
    by_cases empty : r.keptHead = 0
    · simpa [empty] using pushed
    · simpa [empty] using pushed
  · intro s
    rw [List.mem_cons, members' s]
    constructor
    · rintro (rfl | ⟨here, above⟩)
      · exact ⟨queued, Nat.le_refl _⟩
      · exact ⟨here, by omega⟩
    · rintro ⟨here, above⟩
      by_cases same : s = slot
      · exact .inl same
      · exact .inr ⟨here, by omega⟩
  · intro s
    by_cases same : s = slot
    · subst same
      simp only [Function.update_self, queued]
      refine ⟨rfl, ?_⟩
      simp only
      omega
    · simpa [same] using ok.word s

/-- A queued slot that is recycled goes in front of the free list. -/
theorem free_slot (ok : RecyclingOk bump (slot + 1) r place) (queued : place slot = .queued) :
    RecyclingOk bump slot
      { r with
        words := Function.update r.words slot ⟨r.freeHead, .free⟩
        freeHead := slot + 1
        recycled := r.recycled + 1 } (Function.update place slot .free) := by
  obtain ⟨l, chain, members⟩ := ok.free
  obtain ⟨q, queue, members'⟩ := ok.kept
  have outside : slot ∉ q := fun mem => by
    have := ((members' slot).mp mem).2
    omega
  have unlisted : slot ∉ l := fun mem => by
    have free := (members slot).mp mem
    rw [queued] at free
    exact absurd free (by simp)
  refine ⟨⟨slot :: l, ?_, ?_⟩, ⟨q, ?_, ?_⟩, ?_, ok.bound⟩
  · simp only [update_value]
    exact chain.push unlisted
  · intro s
    by_cases same : s = slot
    · simp [same]
    · rw [Function.update_of_ne same, ← members s]
      simp [same]
  · simp only [update_value]
    exact queue.update outside
  · intro s
    rw [members' s]
    by_cases same : s = slot
    · subst same
      simp
    · rw [Function.update_of_ne same]
      constructor
      · rintro ⟨here, above⟩
        exact ⟨here, by omega⟩
      · rintro ⟨here, above⟩
        exact ⟨here, by omega⟩
  · intro s
    by_cases same : s = slot
    · subst same
      simp [Place.WordOk]
    · simpa [same] using ok.word s

/-- The whole loop. -/
theorem below (ok : RecyclingOk bump slot r place) (recycle : Bool) (marks : Nat → Bool)
    (short : slot ≤ bump) (small : bump < Word.cachedDead) :
    RecyclingOk bump 0 (Region.recycleBelow recycle marks slot r)
      fun s => if s < slot then recycled recycle marks place s else place s := by
  induction slot generalizing r place with
  | zero => simpa [Region.recycleBelow] using ok
  | succ slot inductionHypothesis =>
      unfold Region.recycleBelow
      have iff := (ok.word slot).queued_iff
      unfold Word.Queued at iff
      unfold Region.recycleSlot
      by_cases queued : place slot = .queued
      · have word := iff.mp queued
        rw [if_neg (by tauto)]
        by_cases stays : recycle = false ∨ marks slot = true
        · rw [if_pos stays]
          have rest := inductionHypothesis (ok.keep queued (by omega) small) (by omega)
          convert rest using 1
          funext s
          by_cases same : s = slot
          · subst same
            have : recycled recycle marks place s = place s := by
              unfold recycled
              rw [queued]
              simp only
              rw [if_neg]
              rcases stays with off | marked
              · simp [off]
              · simp [marked]
            simp [this]
          · have : s < slot + 1 ↔ s < slot := by omega
            simp only [this]
        · rw [if_neg stays]
          have rest := inductionHypothesis (ok.free_slot queued) (by omega)
          convert rest using 1
          funext s
          have goes : recycle = true ∧ marks slot = false := by
            simpa using not_or.mp stays
          by_cases same : s = slot
          · subst same
            simp [recycled, queued, goes]
          · have : s < slot + 1 ↔ s < slot := by omega
            simp [recycled, this, same]
      · rw [if_pos (by tauto)]
        have rest := inductionHypothesis (ok.skip queued) (by omega)
        convert rest using 1
        funext s
        by_cases same : s = slot
        · subst same
          simp [recycled_of_ne queued]
        · have : s < slot + 1 ↔ s < slot := by omega
          simp only [this]

end RecyclingOk

/-- The marks a sweep reads in a region: none are set in one that is passed. -/
def Region.marked (R : Region) (s : Nat) : Bool :=
  match R.marks with
  | none => true
  | some marks => marks s

theorem Region.sameKind_recycle (R : Region) (recycle : Bool) :
    R.SameKind (R.recycle recycle).1 := by
  unfold Region.recycle
  split
  · exact .refl R
  · split_ifs
    · exact .refl R
    · exact ⟨rfl, rfl, rfl⟩

theorem RegionOk.recycle (ok : RegionOk A R place) (recycle : Bool) :
    RegionOk A (R.recycle recycle).1 (recycled recycle R.marked place) := by
  obtain ⟨l, chain, members⟩ := ok.free
  obtain ⟨q, queue, members'⟩ := ok.queue
  have unchanged (none : ∀ s, recycled recycle R.marked place s = place s) :
      RegionOk A R (recycled recycle R.marked place) := by
    rw [show recycled recycle R.marked place = place from funext none]
    exact ok
  unfold Region.recycle
  cases mapped : R.marks with
  | none =>
      refine unchanged fun s => ?_
      unfold recycled Region.marked
      rw [mapped]
      cases place s <;> simp
  | some marks =>
      simp only
      by_cases empty : R.deadHead = 0
      · rw [if_pos empty]
        refine unchanged fun s => recycled_of_ne fun queued => ?_
        have := (members' s).mpr queued
        rw [queue.head_iff.mp empty] at this
        simp at this
      · rw [if_neg empty]
        have small : R.bump < Word.cachedDead := by
          have := ok.bump
          have := ok.capacity
          simp only [Word.cachedDead]
          omega
        have start : RecyclingOk R.bump R.bump ⟨R.words, R.freeHead, 0, R.deadTail, 0⟩ place := by
          refine ⟨⟨l, chain, members⟩, ⟨[], ⟨rfl, .inl ⟨rfl, rfl⟩⟩, fun s => ?_⟩, ok.word,
            Nat.zero_le _⟩
          simp only [List.not_mem_nil, false_iff, not_and]
          intro queued above
          have fresh := (ok.fresh s).mpr above
          rw [queued] at fresh
          exact absurd fresh (by simp)
        have done := start.below recycle marks (Nat.le_refl _) small
        have same : (fun s => if s < R.bump then recycled recycle marks place s else place s) =
            recycled recycle R.marked place := by
          funext s
          have read : R.marked = marks := by
            unfold Region.marked
            rw [mapped]
          rw [read]
          split_ifs with below
          · rfl
          · have fresh := (ok.fresh s).mpr (by omega)
            exact (recycled_of_ne (by simp [fresh])).symm
        rw [same] at done
        obtain ⟨q', queue', members''⟩ := done.kept
        refine { ok with free := done.free, queue := ⟨q', queue', ?_⟩, word := done.word, fresh := ?_ }
        · intro s
          simpa using members'' s
        · intro s
          rw [← ok.fresh s]
          unfold recycled
          cases place s <;> simp
          split_ifs <;> simp

end Region

end WeaveC.Alloc
