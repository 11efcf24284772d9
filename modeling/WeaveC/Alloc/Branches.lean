import WeaveC.Alloc.Machine

/-!
# What a step can do

The branches of `Thread.step`, each with its guard and what it leaves: the steps
that only go on to another point, and the others, which change the heap or what
the thread itself keeps.
-/

namespace WeaveC.Alloc

variable {A : Arena} {h h' : Heap} {th th' : Thread} {a : Answer}

/-- Where a step goes that changes nothing but the point. -/
inductive Goes (A : Arena) (h : Heap) (th : Thread) (a : Answer) : Point → Point → Prop where
  -- the search for a region with a slot
  | popActive {w : Want} {swept : Bool} :
      Goes A h th a (.popActive w swept) (.popRegion w swept true (h.table.classActive w.cls))
  | lastRegion {w : Want} {swept : Bool} {region : Nat}
      (last : (h.table.region region).regionNext = NoRegion) :
      Goes A h th a (.popNext w swept region) (.popGained w swept)
  | nextRegion {w : Want} {swept : Bool} {region : Nat}
      (more : (h.table.region region).regionNext ≠ NoRegion) :
      Goes A h th a (.popNext w swept region)
        (.popRegion w swept false (h.table.region region).regionNext)
  | gainedSweeps {w : Want} {swept : Bool} (unswept : swept = false)
      (much : BitVec.ofNat 64 ((A.entry w.cls).capacity * (A.entry w.cls).size / 4) ≤
        h.classGained w.cls) :
      Goes A h th a (.popGained w swept) (.sweep (.pop w))
  | gainedSpares {w : Want} {swept : Bool} : Goes A h th a (.popGained w swept) (.spare w swept)
  | spareSweeps {w : Want} {swept : Bool} (none : h.table.takeSpare w.cls = none)
      (unswept : swept = false) :
      Goes A h th a (.spare w swept) (.sweep (.pop w))
  | spareHuge {w : Want} {swept : Bool} (none : h.table.takeSpare w.cls = none)
      (after : swept = true) :
      Goes A h th a (.spare w swept) (.huge w.size w.alignment w.purpose)
  | hugeFails {size alignment : Nat} {purpose : Purpose} :
      Goes A h th a (.huge size alignment purpose) .idle
  -- a release and a reallocation, from their load of the slot word
  | releaseClaims {p : Nat} (inside : A.inArena p = true)
      (start : h.table.slotBase A (h.table.slotOf A p) = p)
      (live : (h.table.word (h.table.slotOf A p)).state = .live) :
      Goes A h th a (.release p)
        (.claim (h.table.slotOf A p) (h.table.word (h.table.slotOf A p)))
  | releaseForeign {p : Nat} (outside : ¬ A.inArena p = true) (none : h.hugeFree p = none)
      (foreign : ¬ (h.huge.find p).isSome = true) :
      Goes A h th a (.release p) .idle
  | resizeStays {p size : Nat} (inside : A.inArena p = true)
      (start : h.table.slotBase A (h.table.slotOf A p) = p)
      (live : (h.table.word (h.table.slotOf A p)).state = .live)
      (same : classFor size = h.table.regionClass (h.table.slotOf A p)) :
      Goes A h th a (.resize p size) (.resizeShadow (h.table.slotOf A p) size)
  | resizeForeign {p size : Nat} (outside : ¬ A.inArena p = true)
      (none : h.huge.find p = none) :
      Goes A h th a (.resize p size) .idle
  -- a sweep
  | sweepDrains {k : Then} (own : th.key = .own) :
      Goes A h th a (.sweep k) (Thread.drainFrom A 0 (.sweep k))
  | sweepAsks {k : Then} (none : th.key ≠ .own) : Goes A h th a (.sweep k) (.wanted k)
  | wantedSlots {k : Then} (queued : h.quarantineBytes ≠ 0) :
      Goes A h th a (.wanted k) (.trySweepLock k)
  | wantedNoSlots {k : Then} (empty : h.quarantineBytes = 0) :
      Goes A h th a (.wanted k) (.wantedHuge k)
  | wantedBlocks {k : Then} (dead : h.huge.deadCount ≠ 0) :
      Goes A h th a (.wantedHuge k) (.trySweepLock k)
  | unwanted {k : Then} (none : h.huge.deadCount = 0) :
      Goes A h th a (.wantedHuge k) (Thread.resume k)
  | lockTaken {k : Then} (held : h.sweepLocked = true) :
      Goes A h th a (.trySweepLock k) (Thread.resume k)
  | worldRuns {k : Then} (unmapped : a.worldMapped = false) :
      Goes A h th a (.world k) (.sweepUnlock k)

/-- The branches of a step. -/
inductive Branch (A : Arena) (h : Heap) (th : Thread) (a : Answer) :
    Point → Heap → Thread → Prop where
  | goes {p q : Point} (next : Goes A h th a p q) : Branch A h th a p h (th.goto q)
  -- the search for a region with a slot
  | popRegion {w : Want} {swept first : Bool} {region : Nat} {es : List Entry} {R : Region}
      {shadow : Runtime.Shadow}
      (popped : Alloc.popRegion A a.grant region (if w.cached then A.cacheLimit w.cls else 1)
        (h.table.region region) h.shadow = (es, R, shadow)) :
      Branch A h th a (.popRegion w swept first region)
        { h with table := h.table.setRegion region R, shadow }
        ((th.storePopped w es).goto (Thread.afterPop w swept first region es))
  | setActive {w : Want} {region got : Nat} {e : Entry} :
      Branch A h th a (.setActive w region got e)
        { h with
          table := { h.table with
            classActive := Function.update h.table.classActive w.cls region } }
        (th.goto (Thread.popped w got e))
  | takesSpare {w : Want} {swept : Bool} {table : Table}
      (found : h.table.takeSpare w.cls = some table) :
      Branch A h th a (.spare w swept) { h with table } (th.goto (.popActive w swept))
  | setCount {w : Want} {got : Nat} :
      Branch A h th a (.setCount w got) h
        (Thread.goto
          { th with cache := th.cache.setAlloc w.cls { th.cache.alloc w.cls with count := got } }
          (Thread.reversal w got 0))
  | swapLow {w : Want} {i : Nat} :
      Branch A h th a (.swapLow w i) h
        (Thread.goto
          { th with
            cache := th.cache.setAlloc w.cls
              { th.cache.alloc w.cls with
                slots := Function.update (th.cache.alloc w.cls).slots i
                  ((th.cache.alloc w.cls).slots ((th.cache.alloc w.cls).count - 1 - i)) } }
          (.swapHigh w i ((th.cache.alloc w.cls).slots i)))
  | swapHigh {w : Want} {i : Nat} {swap : Entry} :
      Branch A h th a (.swapHigh w i swap) h
        (Thread.goto
          { th with
            cache := th.cache.setAlloc w.cls
              { th.cache.alloc w.cls with
                slots := Function.update (th.cache.alloc w.cls).slots
                  ((th.cache.alloc w.cls).count - 1 - i) swap } }
          (Thread.reversal w (th.cache.alloc w.cls).count (i + 1)))
  -- the entry that an allocation takes
  | charge {w : Want} {delta : Int} (grown : delta = th.cache.liveDelta + (A.entry w.cls).size) :
      Branch A h th a (.charge w) (Thread.foldLive h delta (FoldBytes ≤ delta)).1
        { th with
          cache := { th.cache with
            liveDelta := (Thread.foldLive h delta (FoldBytes ≤ delta)).2 }
          point := .takeTop w }
  | takeTop {w : Want} :
      Branch A h th a (.takeTop w) h
        (Thread.goto
          { th with
            cache := th.cache.setAlloc w.cls
              { th.cache.alloc w.cls with count := (th.cache.alloc w.cls).count - 1 } }
          (.storeLive w ((th.cache.alloc w.cls).slots ((th.cache.alloc w.cls).count - 1))))
  | addLive {w : Want} {e : Entry} :
      Branch A h th a (.addLive w e) (h.addLive (A.entry w.cls).size) (th.goto (.storeLive w e))
  | storeLive {w : Want} {e : Entry} :
      Branch A h th a (.storeLive w e)
        { h with table := h.table.setWord e.place ⟨w.size, .live⟩ } (th.goto (.shadowLive w e))
  | shadowLive {w : Want} {e : Entry} :
      Branch A h th a (.shadowLive w e) (h.shadowLive A e.place w.size (A.entry w.cls).size)
        (th.goto (Thread.allocated w.purpose))
  | hugeMade {size alignment map : Nat} {purpose : Purpose} {request : Heap.HugeRequest}
      (asked : h.hugeRequest A size alignment = some request) (mapped : a.map = some map)
      (unmapped : h.Unmapped A map request.mapBytes) (table : a.hugeTable = true) :
      Branch A h th a (.huge size alignment purpose) (h.hugeInsert A size request map)
        (th.goto (Thread.allocated purpose))
  -- a release, and what it adds to
  | hugeFreed {p : Nat} {freed : Heap} (outside : ¬ A.inArena p = true)
      (found : h.hugeFree p = some freed) :
      Branch A h th a (.release p) freed (th.goto (.overBudget .start))
  | claim {x : Slot} :
      Branch A h th a (.claim x (h.table.word x))
        { h with table := h.table.setWord x Word.claimed } (th.goto (.chooseCache x))
  | chooseCache {x : Slot} :
      Branch A h th a (.chooseCache x) h
        ((th.cacheFor A (h.table.regionClass x) a.cacheMapped).2.goto
          (.shadowDead x (th.cacheFor A (h.table.regionClass x) a.cacheMapped).1))
  | shadowDead {x : Slot} {cached : Bool} :
      Branch A h th a (.shadowDead x cached) (h.shadowDead A x)
        (th.goto (if cached then .push x else .retire x))
  | countFirst {x : Slot} (first : a.countFirst = true) :
      Branch A h th a (.push x) h
        (Thread.goto
          { th with
            cache := th.cache.setRelease (h.table.regionClass x)
              { th.cache.release (h.table.regionClass x) with
                count := (th.cache.release (h.table.regionClass x)).count + 1 } }
          (.pushSlot x))
  | slotFirst {x : Slot} (first : a.countFirst = false) :
      Branch A h th a (.push x) h
        (Thread.goto
          { th with
            cache := th.cache.setRelease (h.table.regionClass x)
              { th.cache.release (h.table.regionClass x) with
                slots := Function.update (th.cache.release (h.table.regionClass x)).slots
                  (th.cache.release (h.table.regionClass x)).count ⟨x.region, x.index, true⟩ } }
          (.pushCount x))
  | pushCount {x : Slot} :
      Branch A h th a (.pushCount x) h
        (Thread.goto
          { th with
            cache := th.cache.setRelease (h.table.regionClass x)
              { th.cache.release (h.table.regionClass x) with
                count := (th.cache.release (h.table.regionClass x)).count + 1 } }
          (.credit (h.table.regionClass x)))
  | pushSlot {x : Slot} :
      Branch A h th a (.pushSlot x) h
        (Thread.goto
          { th with
            cache := th.cache.setRelease (h.table.regionClass x)
              { th.cache.release (h.table.regionClass x) with
                slots := Function.update (th.cache.release (h.table.regionClass x)).slots
                  ((th.cache.release (h.table.regionClass x)).count - 1)
                  ⟨x.region, x.index, true⟩ } }
          (.credit (h.table.regionClass x)))
  | credit {c : Nat} {delta : Int} (shrunk : delta = th.cache.liveDelta - (A.entry c).size) :
      Branch A h th a (.credit c) (Thread.foldLive h delta (delta ≤ -FoldBytes)).1
        { th with
          cache := { th.cache with
            liveDelta := (Thread.foldLive h delta (delta ≤ -FoldBytes)).2 }
          point := if (th.cache.release c).count = A.cacheLimit c then .flush c 0 0 .full
            else .idle }
  | retire {x : Slot} :
      Branch A h th a (.retire x)
        { h with
          table := h.table.setRegion x.region ((h.table.region x.region).enqueue x.index) }
        (th.goto (.retireAdd x))
  | retireAdd {x : Slot} :
      Branch A h th a (.retireAdd x)
        { h with quarantineBytes := h.quarantineBytes + BitVec.ofNat 64 (h.table.slotBytes x) }
        (th.goto (.retireGained x))
  | retireGained {x : Slot} :
      Branch A h th a (.retireGained x)
        { h with
          classGained := Function.update h.classGained (h.table.regionClass x)
            (h.classGained (h.table.regionClass x) + BitVec.ofNat 64 (h.table.slotBytes x)) }
        (th.goto (.retireLive x))
  | retireLive {x : Slot} :
      Branch A h th a (.retireLive x) (h.addLive (-(h.table.slotBytes x)))
        (th.goto (.overBudget .start))
  | overBudget {r : Reading} :
      Branch A h th a (.overBudget r) (Thread.overBudget A h a.now r).1
        (th.goto (Thread.overBudget A h a.now r).2)
  -- the own cache's way back
  | flushRun {c i bytes : Nat} {k : FlushFor} (held : i < (th.cache.release c).count) {n : Nat}
      (run : Thread.runLength (th.cache.release c).slots ((th.cache.release c).slots i).region i
        ((th.cache.release c).count - i) = n) :
      Branch A h th a (.flush c i bytes k)
        { h with table := Thread.enqueueRun (th.cache.release c).slots i n h.table }
        (th.goto (.flush c (i + n) (bytes + n * (A.entry c).size) k))
  | flushEnds {c i bytes : Nat} {k : FlushFor} (ends : ¬ i < (th.cache.release c).count) :
      Branch A h th a (.flush c i bytes k) h
        (Thread.goto
          { th with cache := th.cache.setRelease c { th.cache.release c with count := 0 } }
          (if bytes ≠ 0 then .flushAdd c bytes k else Thread.flushed c k))
  | flushAdd {c bytes : Nat} {k : FlushFor} :
      Branch A h th a (.flushAdd c bytes k)
        { h with quarantineBytes := h.quarantineBytes + BitVec.ofNat 64 bytes }
        (th.goto (.flushGained c bytes k))
  | flushGained {c bytes : Nat} {k : FlushFor} :
      Branch A h th a (.flushGained c bytes k)
        { h with
          classGained := Function.update h.classGained c
            (h.classGained c + BitVec.ofNat 64 bytes) }
        (th.goto (Thread.flushed c k))
  | giveBack {c i : Nat} {k : After} (held : i < (th.cache.alloc c).count) :
      Branch A h th a (.giveBack c i k)
        { h with
          table := h.table.setRegion ((th.cache.alloc c).slots i).region
            ((h.table.region ((th.cache.alloc c).slots i).region).giveBack
              ((th.cache.alloc c).slots i).slot) }
        (th.goto (.giveBack c (i + 1) k))
  | giveBackEnds {c i : Nat} {k : After} (ends : ¬ i < (th.cache.alloc c).count) :
      Branch A h th a (.giveBack c i k) h
        (Thread.goto
          { th with cache := th.cache.setAlloc c { th.cache.alloc c with count := 0 } }
          (Thread.drainFrom A (c + 1) k))
  | fold {k : After} :
      Branch A h th a (.fold k)
        (Thread.foldLive h th.cache.liveDelta (th.cache.liveDelta ≠ 0)).1
        { th with
          cache := { th.cache with
            liveDelta := (Thread.foldLive h th.cache.liveDelta (th.cache.liveDelta ≠ 0)).2 }
          point := match k with
            | .sweep k => .wanted k
            | .exit => .unlink }
  | unlink : Branch A h th a .unlink h { th with cache := .fresh, point := .idle }
  -- a sweep
  | lock {k : Then} (free : h.sweepLocked = false) :
      Branch A h th a (.trySweepLock k) { h with sweepLocked := true } (th.goto (.world k))
  | world {k : Then} (mapped : a.worldMapped = true) :
      Branch A h th a (.world k) (h.sweepWorld A a.world).2
        (th.goto (.swept k (h.sweepWorld A a.world).1))
  | swept {k : Then} {marked : Bool} :
      Branch A h th a (.swept k marked) (h.swept A a.now a.took marked) (th.goto (.sweepUnlock k))
  | sweepUnlock {k : Then} :
      Branch A h th a (.sweepUnlock k) { h with sweepLocked := false } (th.goto (Thread.resume k))
  -- a reallocation
  | resizeMoves {p size : Nat} :
      Branch A h th a (.resize p size) h (th.allocate A size 0 (.move p) a.cacheMapped)
  | resizeShadow {x : Slot} {size : Nat} :
      Branch A h th a (.resizeShadow x size) (h.shadowLive A x size (h.table.slotBytes x))
        (th.goto (.resizeWord x size))
  | resizeWord {x : Slot} {size : Nat} :
      Branch A h th a (.resizeWord x size)
        { h with table := h.table.setWord x ⟨size, .live⟩ } (th.goto .idle)

/-- The block `hugeFree` releases, and the heap after it. -/
theorem hugeFree_heap {p : Nat} (found : h.hugeFree p = some h') :
    ∃ i block, h.huge.blocks[i]? = some block ∧ block.dead = 0 ∧ block.base = p ∧
      h' =
        { h with
          huge :=
            { h.huge with
              blocks := h.huge.blocks.set i { block with dead := h.huge.releases + 1 }
              releases := h.huge.releases + 1
              deadCount := h.huge.deadCount + 1 }
          hugeDeadBytes := h.hugeDeadBytes + BitVec.ofNat 64 block.size
          shadow := Heap.hugeShadowDead h.shadow block } := by
  unfold Heap.hugeFree at found
  split_ifs at found
  cases count : Huge.countTo h.huge.blocks p with
  | zero =>
      unfold Huge.blockAt at found
      rw [count] at found
      cases found
  | succ i =>
      have named : Huge.blockAt h.huge.blocks p = h.huge.blocks[i]? := by
        unfold Huge.blockAt
        rw [count]
      rw [named] at found
      cases listed : h.huge.blocks[i]? with
      | none =>
          rw [listed] at found
          cases found
      | some block =>
          rw [listed] at found
          dsimp only at found
          split_ifs at found with live
          obtain rfl := Option.some.inj found
          refine ⟨i, block, listed, live.2, live.1, ?_⟩
          rw [count, Nat.add_sub_cancel]

theorem branch_of_hugeAlloc {size alignment : Nat} {purpose : Purpose}
    (taken : th.hugeAlloc A h size alignment purpose a = some (h', th')) :
    Branch A h th a (.huge size alignment purpose) h' th' := by
  unfold Thread.hugeAlloc at taken
  split at taken
  · rename_i request map asked mapped
    split_ifs at taken with unmapped table
    · obtain ⟨rfl, rfl⟩ := Prod.mk.inj (Option.some.inj taken)
      exact .hugeMade asked mapped unmapped table
    · obtain ⟨rfl, rfl⟩ := Prod.mk.inj (Option.some.inj taken)
      exact .goes .hugeFails
  · obtain ⟨rfl, rfl⟩ := Prod.mk.inj (Option.some.inj taken)
    exact .goes .hugeFails

theorem branch_of_release {p : Nat} (taken : th.release A h p = some (h', th')) :
    Branch A h th a (.release p) h' th' := by
  unfold Thread.release at taken
  by_cases inside : A.inArena p = true
  · rw [if_pos inside] at taken
    dsimp only at taken
    split_ifs at taken with refused
    obtain ⟨rfl, rfl⟩ := Prod.mk.inj (Option.some.inj taken)
    obtain ⟨start, live⟩ := not_or.mp refused
    exact .goes (.releaseClaims inside (not_not.mp start) (not_not.mp live))
  · rw [if_neg inside] at taken
    cases found : h.hugeFree p with
    | some freed =>
        rw [found] at taken
        obtain ⟨rfl, rfl⟩ := Prod.mk.inj (Option.some.inj taken)
        exact .hugeFreed inside found
    | none =>
        rw [found] at taken
        dsimp only at taken
        split_ifs at taken with known
        obtain ⟨rfl, rfl⟩ := Prod.mk.inj (Option.some.inj taken)
        exact .goes (.releaseForeign inside found known)

theorem branch_of_resize {p size : Nat}
    (taken : th.resize A h p size a.cacheMapped = some (h', th')) :
    Branch A h th a (.resize p size) h' th' := by
  unfold Thread.resize at taken
  by_cases inside : A.inArena p = true
  · rw [if_pos inside] at taken
    dsimp only at taken
    split_ifs at taken with refused same
    · obtain ⟨rfl, rfl⟩ := Prod.mk.inj (Option.some.inj taken)
      obtain ⟨start, live⟩ := not_or.mp refused
      exact .goes (.resizeStays inside (not_not.mp start) (not_not.mp live) same)
    · obtain ⟨rfl, rfl⟩ := Prod.mk.inj (Option.some.inj taken)
      exact .resizeMoves
  · rw [if_neg inside] at taken
    cases found : h.huge.find p with
    | some block =>
        rw [found] at taken
        dsimp only at taken
        split_ifs at taken
        obtain ⟨rfl, rfl⟩ := Prod.mk.inj (Option.some.inj taken)
        exact .resizeMoves
    | none =>
        rw [found] at taken
        obtain ⟨rfl, rfl⟩ := Prod.mk.inj (Option.some.inj taken)
        exact .goes (.resizeForeign inside found)

/-- A step takes one of the branches. -/
theorem branch_of_step (taken : th.step A h a = some (h', th')) :
    Branch A h th a th.point h' th' := by
  unfold Thread.step at taken
  cases point : th.point with
  | idle => simp [point] at taken
  | huge size alignment purpose =>
      simp only [point] at taken
      exact branch_of_hugeAlloc taken
  | release p =>
      simp only [point] at taken
      exact branch_of_release taken
  | resize p size =>
      simp only [point] at taken
      exact branch_of_resize taken
  | popNext w swept region =>
      simp only [point] at taken
      obtain ⟨rfl, rfl⟩ := Prod.mk.inj (Option.some.inj taken)
      by_cases last : (h.table.region region).regionNext = NoRegion
      · rw [if_pos last]
        exact .goes (.lastRegion last)
      · rw [if_neg last]
        exact .goes (.nextRegion last)
  | popGained w swept =>
      simp only [point] at taken
      split_ifs at taken with much
      · obtain ⟨rfl, rfl⟩ := Prod.mk.inj (Option.some.inj taken)
        exact .goes (.gainedSweeps much.1 much.2)
      · obtain ⟨rfl, rfl⟩ := Prod.mk.inj (Option.some.inj taken)
        exact .goes .gainedSpares
  | spare w swept =>
      simp only [point] at taken
      cases found : h.table.takeSpare w.cls with
      | some table =>
          rw [found] at taken
          obtain ⟨rfl, rfl⟩ := Prod.mk.inj (Option.some.inj taken)
          exact .takesSpare found
      | none =>
          rw [found] at taken
          dsimp only at taken
          split_ifs at taken with after
          · obtain ⟨rfl, rfl⟩ := Prod.mk.inj (Option.some.inj taken)
            exact .goes (.spareHuge found after)
          · obtain ⟨rfl, rfl⟩ := Prod.mk.inj (Option.some.inj taken)
            exact .goes (.spareSweeps found (Bool.eq_false_iff.mpr after))
  | popRegion w swept first region =>
      simp only [point] at taken
      obtain ⟨rfl, rfl⟩ := Prod.mk.inj (Option.some.inj taken)
      exact .popRegion rfl
  | charge w =>
      simp only [point] at taken
      obtain ⟨rfl, rfl⟩ := Prod.mk.inj (Option.some.inj taken)
      exact .charge rfl
  | credit c =>
      simp only [point] at taken
      obtain ⟨rfl, rfl⟩ := Prod.mk.inj (Option.some.inj taken)
      exact .credit rfl
  | claim x word =>
      simp only [point] at taken
      split_ifs at taken with same
      obtain ⟨rfl, rfl⟩ := Prod.mk.inj (Option.some.inj taken)
      exact same ▸ .claim
  | push x =>
      simp only [point] at taken
      split_ifs at taken with first
      · obtain ⟨rfl, rfl⟩ := Prod.mk.inj (Option.some.inj taken)
        exact .countFirst first
      · obtain ⟨rfl, rfl⟩ := Prod.mk.inj (Option.some.inj taken)
        exact .slotFirst (Bool.eq_false_iff.mpr first)
  | flush c i bytes k =>
      simp only [point] at taken
      by_cases held : i < (th.cache.release c).count
      · rw [if_pos held] at taken
        obtain ⟨rfl, rfl⟩ := Prod.mk.inj (Option.some.inj taken)
        exact .flushRun held rfl
      · rw [if_neg held] at taken
        obtain ⟨rfl, rfl⟩ := Prod.mk.inj (Option.some.inj taken)
        exact .flushEnds held
  | giveBack c i k =>
      simp only [point] at taken
      split_ifs at taken with held
      · obtain ⟨rfl, rfl⟩ := Prod.mk.inj (Option.some.inj taken)
        exact .giveBack held
      · obtain ⟨rfl, rfl⟩ := Prod.mk.inj (Option.some.inj taken)
        exact .giveBackEnds held
  | sweep k =>
      simp only [point] at taken
      obtain ⟨rfl, rfl⟩ := Prod.mk.inj (Option.some.inj taken)
      by_cases own : th.key = .own
      · rw [if_pos own]
        exact .goes (.sweepDrains own)
      · rw [if_neg own]
        exact .goes (.sweepAsks own)
  | wanted k =>
      simp only [point] at taken
      obtain ⟨rfl, rfl⟩ := Prod.mk.inj (Option.some.inj taken)
      by_cases empty : h.quarantineBytes = 0
      · rw [if_neg (not_not.mpr empty)]
        exact .goes (.wantedNoSlots empty)
      · rw [if_pos empty]
        exact .goes (.wantedSlots empty)
  | wantedHuge k =>
      simp only [point] at taken
      obtain ⟨rfl, rfl⟩ := Prod.mk.inj (Option.some.inj taken)
      by_cases none : h.huge.deadCount = 0
      · rw [if_neg (not_not.mpr none)]
        exact .goes (.unwanted none)
      · rw [if_pos none]
        exact .goes (.wantedBlocks none)
  | trySweepLock k =>
      simp only [point] at taken
      split_ifs at taken with held
      · obtain ⟨rfl, rfl⟩ := Prod.mk.inj (Option.some.inj taken)
        exact .goes (.lockTaken held)
      · obtain ⟨rfl, rfl⟩ := Prod.mk.inj (Option.some.inj taken)
        exact .lock (Bool.eq_false_iff.mpr held)
  | world k =>
      simp only [point] at taken
      split_ifs at taken with mapped
      · obtain ⟨rfl, rfl⟩ := Prod.mk.inj (Option.some.inj taken)
        exact .world mapped
      · obtain ⟨rfl, rfl⟩ := Prod.mk.inj (Option.some.inj taken)
        exact .goes (.worldRuns (Bool.eq_false_iff.mpr mapped))
  | popActive w swept =>
      simp only [point] at taken
      obtain ⟨rfl, rfl⟩ := Prod.mk.inj (Option.some.inj taken)
      exact .goes .popActive
  | _ =>
      simp only [point] at taken
      obtain ⟨rfl, rfl⟩ := Prod.mk.inj (Option.some.inj taken)
      constructor

end WeaveC.Alloc
