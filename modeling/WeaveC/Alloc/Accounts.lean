import WeaveC.Alloc.Branches
import WeaveC.Alloc.Counts
import WeaveC.Alloc.Marks
import WeaveC.Alloc.HugeOrder
import Mathlib.Data.BitVec
import Mathlib.Tactic.LinearCombination

/-!
# The allocator's accounts

The bytes of the quarantined slots, of the dead huge blocks and of the live
slots are counted with plain atomic additions, each some steps before or after
the slot it is about is moved.  In every reachable state each counter is right
up to what the threads that are in between still have to add.
-/

namespace WeaveC.Alloc

open WeaveC.Library

variable {T : Type} {A : Arena} {place : Slot → Place T} {h h' : Heap} {th th' : Thread}
  {s s' : State T} {e : Event T}

/-! ## What is held -/

/-- The bytes of a released huge block. -/
def HugeBlock.heldBytes (b : HugeBlock) : Nat := if b.dead = 0 then 0 else b.size

def Huge.deadBytes (g : Huge) : Nat := (g.blocks.map HugeBlock.heldBytes).sum

namespace Heap

/-- What the count of the quarantined slots' bytes lacks. -/
def queuedGap (h : Heap) : BitVec 64 :=
  BitVec.ofNat 64 (h.table.bytes .ofQueued) - h.quarantineBytes

/-- What the count of the dead huge blocks' bytes lacks. -/
def deadGap (h : Heap) : BitVec 64 := BitVec.ofNat 64 h.huge.deadBytes - h.hugeDeadBytes

/-- What the count of the live slots' bytes lacks. -/
def liveGap (h : Heap) : BitVec 64 := BitVec.ofNat 64 (h.table.bytes .ofLive) - h.liveBytes

end Heap

/-- The bytes a thread has queued and not counted yet. -/
def Point.owed (t : Table) : Point → Nat
  | .retireAdd x => t.slotBytes x
  | .flush _ _ bytes _ | .flushAdd _ bytes _ => bytes
  | _ => 0

/-- The bytes counted as live of a slot that is not live yet, or no longer. -/
def Point.counted (A : Arena) (t : Table) : Point → Nat
  | .takeTop w | .storeLive w _ => (A.entry w.cls).size
  | .chooseCache x | .shadowDead x _ | .push x | .pushCount x | .pushSlot x | .retire x
  | .retireAdd x | .retireGained x | .retireLive x => t.slotBytes x
  | .credit c => (A.entry c).size
  | _ => 0

namespace Thread

def owed (t : Table) (th : Thread) : BitVec 64 := BitVec.ofNat 64 (th.point.owed t)

/-- The change of the live bytes that a thread's cache has gathered; an exiting
thread has folded it in. -/
def change (th : Thread) : Int :=
  match th.point with
  | .unlink => 0
  | _ => th.cache.liveDelta

/-- What a thread has still to add to the count of the live bytes. -/
def pending (A : Arena) (t : Table) (th : Thread) : BitVec 64 :=
  BitVec.ofInt 64 th.change - BitVec.ofNat 64 (th.point.counted A t)

end Thread

/-! ## The huge blocks -/

theorem Huge.deadBytes_of_unmarked {g g' : Huge}
    (same : g'.blocks.map HugeBlock.unmarked = g.blocks.map HugeBlock.unmarked) :
    g'.deadBytes = g.deadBytes := by
  have read (g : Huge) :
      g.deadBytes = ((g.blocks.map HugeBlock.unmarked).map HugeBlock.heldBytes).sum := by
    rw [List.map_map]
    rfl
  rw [read, read, same]

theorem Heap.deadBytes_insert (h : Heap) (size : Nat) (request : Heap.HugeRequest) (map : Nat) :
    (h.hugeInsert A size request map).huge.deadBytes = h.huge.deadBytes := by
  unfold Huge.deadBytes Heap.hugeInsert
  rw [(((List.perm_insertIdx _ _ (countTo_le _ _)).map HugeBlock.heldBytes)).sum_eq, List.map_cons,
    List.sum_cons]
  exact Nat.zero_add _

theorem Heap.deadGap_free {p : Nat} (found : h.hugeFree p = some h') :
    h'.deadGap = h.deadGap ∧ h.huge.deadBytes ≤ h'.huge.deadBytes := by
  obtain ⟨i, block, listed, live, -, rfl⟩ := hugeFree_heap found
  obtain ⟨inside, here⟩ := List.getElem?_eq_some_iff.mp listed
  have after : Huge.deadBytes { h.huge with
        blocks := h.huge.blocks.set i { block with dead := h.huge.releases + 1 }
        releases := h.huge.releases + 1
        deadCount := h.huge.deadCount + 1 } = h.huge.deadBytes + block.size := by
    have before := (List.getElem_cons_eraseIdx_perm inside).map HugeBlock.heldBytes
    have set := (List.set_perm_cons_eraseIdx inside
      { block with dead := h.huge.releases + 1 }).map HugeBlock.heldBytes
    have gone : block.heldBytes = 0 := if_pos live
    unfold Huge.deadBytes
    rw [set.sum_eq, ← before.sum_eq, List.map_cons, List.sum_cons, List.map_cons, List.sum_cons,
      here, gone, Nat.zero_add, Nat.add_comm]
    rfl
  unfold deadGap
  rw [after, BitVec.ofNat_add]
  refine ⟨?_, Nat.le_add_right _ _⟩
  linear_combination

theorem Heap.deadGap_recycle (h : Heap) (recycle : Bool) :
    (h.recycleHuge recycle).deadGap = h.deadGap := by
  have parts := (List.filter_append_perm (Heap.keepsHuge recycle) h.huge.blocks).map
    HugeBlock.heldBytes
  have kept : (h.recycleHuge recycle).huge.deadBytes =
      ((h.huge.blocks.filter (Heap.keepsHuge recycle)).map HugeBlock.heldBytes).sum := by
    unfold Huge.deadBytes Heap.recycleHuge
    rw [List.map_map]
    rfl
  have gone : ((h.huge.blocks.filter fun b => !Heap.keepsHuge recycle b).map
      HugeBlock.heldBytes) = (h.huge.blocks.filter fun b => !Heap.keepsHuge recycle b).map
        HugeBlock.size := by
    refine List.map_congr_left fun b mem => if_neg fun live => ?_
    have dropped := (List.mem_filter.mp mem).2
    unfold Heap.keepsHuge at dropped
    simp [live] at dropped
  have total := parts.sum_eq
  rw [List.map_append, List.sum_append, gone] at total
  have counted := foldl_sub_eq (fun b : HugeBlock => BitVec.ofNat 64 b.size)
    (h.huge.blocks.filter fun b => !Heap.keepsHuge recycle b) h.hugeDeadBytes
  have sums (l : List HugeBlock) : BitVec.ofNat 64 (l.map HugeBlock.size).sum =
      (l.map fun b => BitVec.ofNat 64 b.size).sum := by
    induction l with
    | nil => rfl
    | cons b l inductionHypothesis =>
        rw [List.map_cons, List.sum_cons, BitVec.ofNat_add, inductionHypothesis, List.map_cons,
          List.sum_cons]
  unfold deadGap
  rw [kept]
  have whole := congrArg (BitVec.ofNat 64) total
  rw [BitVec.ofNat_add, sums] at whole
  change _ - List.foldl _ _ _ = BitVec.ofNat 64 (h.huge.blocks.map HugeBlock.heldBytes).sum - _
  linear_combination whole - counted

/-! ## Sweeps -/

namespace Heap

/-- The counts of bytes. -/
def counters (h : Heap) : List (BitVec 64) :=
  [h.quarantineBytes, h.hugeDeadBytes, h.liveBytes, h.retainedBytes]

theorem counters_markWords (A : Arena) (h : Heap) (words : List Nat) :
    (h.markWords A words).counters = h.counters := by
  unfold markWords
  induction words generalizing h with
  | nil => rfl
  | cons value words inductionHypothesis =>
      rw [List.foldl_cons, inductionHypothesis, markAddress_eq]
      rcases h.target A value with _ | target
      · rfl
      · cases target <;> rfl

/-- Marks change no gap. -/
theorem gaps_marked (slots : h.table.SameSlots h'.table)
    (blocks : h'.huge.blocks.map HugeBlock.unmarked = h.huge.blocks.map HugeBlock.unmarked)
    (counters : h'.counters = h.counters) :
    h'.queuedGap = h.queuedGap ∧ h'.deadGap = h.deadGap ∧ h'.liveGap = h.liveGap := by
  unfold Heap.counters at counters
  simp only [List.cons.injEq, and_true] at counters
  obtain ⟨quarantine, dead, live, -⟩ := counters
  unfold queuedGap deadGap liveGap
  rw [TableOk.bytes_sameSlots slots, TableOk.bytes_sameSlots slots,
    Huge.deadBytes_of_unmarked blocks, quarantine, dead, live]
  exact ⟨rfl, rfl, rfl⟩

theorem gaps_recycle (ok : TableOk A h.table place) (recycle : Bool) :
    (h.recycle A recycle).queuedGap = h.queuedGap ∧
      (h.recycle A recycle).deadGap = h.deadGap ∧ (h.recycle A recycle).liveGap = h.liveGap := by
  refine ⟨?_, deadGap_recycle (h.recycleRegions A recycle) recycle, ?_⟩
  · have counted := foldl_sub_eq (fun r => BitVec.ofNat 64
      ((h.table.region r).entry.size * ((h.table.region r).recycle recycle).2))
      (List.range h.table.regions) h.quarantineBytes
    have sums (n : Nat) (g : Nat → Nat) : BitVec.ofNat 64 (∑ r ∈ Finset.range n, g r) =
        ((List.range n).map fun r => BitVec.ofNat 64 (g r)).sum := by
      induction n with
      | zero => rfl
      | succ n inductionHypothesis =>
          rw [Finset.sum_range_succ, BitVec.ofNat_add, inductionHypothesis, List.range_succ,
            List.map_append, List.sum_append]
          simp
    have held := congrArg (BitVec.ofNat 64)
      (ok.bytes_recycleRegions (f := .ofQueued) recycle)
    rw [BitVec.ofNat_add] at held
    have one : h.recycledBytes recycle * Weight.ofQueued.queued = h.recycledBytes recycle :=
      Nat.mul_one _
    rw [one, recycledBytes, sums] at held
    unfold queuedGap
    change BitVec.ofNat 64 ((h.recycleRegions A recycle).table.bytes .ofQueued) -
      List.foldl _ _ _ = _
    linear_combination held - counted
  · have same := ok.bytes_recycleRegions (f := .ofLive) recycle
    have none : h.recycledBytes recycle * Weight.ofLive.queued = 0 := Nat.mul_zero _
    rw [none, Nat.add_zero] at same
    unfold liveGap
    rw [← same]
    rfl

/-- A sweep takes as many bytes off each count as it recycles. -/
theorem gaps_sweepWorld (ok : TableOk A h.table place) (answer : WorldAnswer) :
    (h.sweepWorld A answer).2.queuedGap = h.queuedGap ∧
      (h.sweepWorld A answer).2.deadGap = h.deadGap ∧
        (h.sweepWorld A answer).2.liveGap = h.liveGap := by
  by_cases marks : h.Marks answer
  · rw [sweepWorld_of_marks marks]
    have slots := h.markedBy_sameSlots A answer
    obtain ⟨queued, dead, live⟩ := gaps_recycle (ok.sameSlots slots)
      (answer.scanned && !answer.changed)
    have counters : (h.markedBy A answer).counters = h.counters := by
      obtain ⟨words, eq⟩ := (h.prepared answer).markedTo_mark A answer
      unfold markedBy
      rw [eq]
      exact counters_markWords A (h.prepared answer) words
    obtain ⟨queued', dead', live'⟩ := gaps_marked slots (markedBy_sameButMarks A h answer).blocks
      counters
    exact ⟨queued.trans queued', dead.trans dead', live.trans live'⟩
  · rcases (sweepWorld_of_not_marks (A := A) marks).2 with eq | eq
    · rw [eq]
      exact ⟨rfl, rfl, rfl⟩
    · rw [eq]
      exact gaps_marked (h.prepared_sameSlots answer) rfl rfl

end Heap

/-! ## Points where nothing is owed -/

/-- A thread at the point owes nothing, and counts no slot that is not live. -/
def Point.Even : Point → Prop
  | .flush _ _ bytes _ | .flushAdd _ bytes _ => bytes = 0
  | .takeTop _ | .storeLive _ _ | .chooseCache _ | .shadowDead _ _ | .push _ | .pushCount _
  | .pushSlot _ | .retire _ | .retireAdd _ | .retireGained _ | .retireLive _ | .credit _
  | .unlink => False
  | _ => True

namespace Point.Even

variable {p : Point}

theorem owed (even : p.Even) (t : Table) : p.owed t = 0 := by
  cases p with
  | flush | flushAdd => exact even
  | retireAdd => exact even.elim
  | _ => rfl

theorem counted (even : p.Even) (A : Arena) (t : Table) : p.counted A t = 0 := by
  cases p with
  | takeTop | storeLive | chooseCache | shadowDead | push | pushCount | pushSlot | retire
  | retireAdd | retireGained | retireLive | credit => exact even.elim
  | _ => rfl

theorem change (even : th.point.Even) : th.change = th.cache.liveDelta := by
  unfold Thread.change
  cases point : th.point with
  | unlink =>
      rw [point] at even
      exact even.elim
  | _ => rfl

end Point.Even

theorem even_allocated (purpose : Purpose) : (Thread.allocated purpose).Even := by
  cases purpose <;> trivial

theorem even_popped (w : Want) (got : Nat) (x : Entry) : (Thread.popped w got x).Even := by
  unfold Thread.popped
  split <;> trivial

theorem even_afterPop (w : Want) (swept first : Bool) (region : Nat) (es : List Entry) :
    (Thread.afterPop w swept first region es).Even := by
  cases first with
  | false => cases es <;> trivial
  | true =>
      cases es with
      | nil => trivial
      | cons x es => exact even_popped w _ x

theorem even_reversal (w : Want) (count i : Nat) : (Thread.reversal w count i).Even := by
  unfold Thread.reversal
  split_ifs <;> trivial

theorem even_resume (k : Then) : (Thread.resume k).Even := by
  cases k <;> trivial

theorem even_flushed (c : Nat) (k : FlushFor) : (Thread.flushed c k).Even := by
  cases k <;> trivial

theorem even_drainFrom (A : Arena) (c : Nat) (k : After) : (Thread.drainFrom A c k).Even := by
  unfold Thread.drainFrom
  split_ifs
  · rfl
  · trivial

theorem overBudget_even (A : Arena) (h : Heap) (now : BitVec 64) (r : Reading) :
    (Thread.overBudget A h now r).2.Even ∧
      (Thread.overBudget A h now r).1.table = h.table ∧
      (Thread.overBudget A h now r).1.huge = h.huge ∧
      (Thread.overBudget A h now r).1.counters = h.counters := by
  unfold Thread.overBudget
  cases r with
  | budgets | ended =>
      dsimp only
      split_ifs <;> exact ⟨trivial, rfl, rfl, rfl⟩
  | _ => exact ⟨trivial, rfl, rfl, rfl⟩

theorem even_allocate (A : Arena) (th : Thread) (size alignment : Nat) (purpose : Purpose)
    (mapped : Bool) : (th.allocate A size alignment purpose mapped).point.Even ∧
      (th.allocate A size alignment purpose mapped).cache = th.cache := by
  unfold Thread.allocate
  dsimp only
  obtain ⟨kept, -, -⟩ := cacheFor_spec (A := A) th (requestClass size alignment) mapped
  split_ifs
  · exact ⟨trivial, rfl⟩
  · exact ⟨trivial, kept⟩
  · exact ⟨trivial, kept⟩
  · exact ⟨trivial, kept⟩
  · exact ⟨trivial, rfl⟩

theorem Goes.even {a : Answer} {p q : Point} (goes : Goes A h th a p q) : p.Even ∧ q.Even := by
  cases goes with
  | sweepDrains => exact ⟨trivial, even_drainFrom A _ _⟩
  | unwanted | lockTaken => exact ⟨trivial, even_resume _⟩
  | _ => exact ⟨trivial, trivial⟩

/-! ## One step -/

/-- A heap whose accounts are another's. -/
structure Heap.SameAccounts (h h' : Heap) : Prop where
  bytes : ∀ f, h'.table.bytes f = h.table.bytes f
  dead : h'.huge.deadBytes = h.huge.deadBytes
  counters : h'.counters = h.counters

namespace Heap.SameAccounts

theorem of_fields (table : h'.table = h.table) (huge : h'.huge = h.huge)
    (counters : h'.counters = h.counters) : h.SameAccounts h' :=
  ⟨fun _ => table ▸ rfl, huge ▸ rfl, counters⟩

theorem of_table {t : Table} (bytes : ∀ f, t.bytes f = h.table.bytes f) (shadow : Runtime.Shadow) :
    h.SameAccounts { h with table := t, shadow } :=
  ⟨bytes, rfl, rfl⟩

theorem gaps (same : h.SameAccounts h') :
    h'.queuedGap = h.queuedGap ∧ h'.liveGap = h.liveGap ∧ h'.deadGap = h.deadGap ∧
      h'.retainedBytes = h.retainedBytes := by
  have counters := same.counters
  unfold Heap.counters at counters
  simp only [List.cons.injEq, and_true] at counters
  obtain ⟨quarantine, dead, live, retained⟩ := counters
  unfold queuedGap deadGap liveGap
  rw [same.bytes, same.bytes, same.dead, quarantine, dead, live]
  exact ⟨rfl, rfl, rfl, retained⟩

end Heap.SameAccounts

/-- What a step other than a sweep adds to the bytes held covers what it comes
to owe. -/
structure Heap.Gains (h h' : Heap) (owed owed' : Nat) : Prop where
  retained : h'.retainedBytes = h.retainedBytes
  dead : h.huge.deadBytes ≤ h'.huge.deadBytes
  queued : h.table.bytes .ofQueued + owed' ≤ h'.table.bytes .ofQueued + owed

/-- What a step changes of the gaps, the thread that takes it comes to owe. -/
structure Settles (A : Arena) (h h' : Heap) (th th' : Thread) : Prop where
  queued : h'.queuedGap + th.owed h.table = h.queuedGap + th'.owed h'.table
  live : h'.liveGap + th.pending A h.table = h.liveGap + th'.pending A h'.table
  dead : h'.deadGap = h.deadGap
  gains : (∃ k, th.point = .world k) ∨
    h.Gains h' (th.point.owed h.table) (th'.point.owed h'.table)

namespace Settles

/-- A step that neither moves slots nor counts. -/
theorem of_same (same : h.SameAccounts h')
    (owed : th'.point.owed h'.table = th.point.owed h.table)
    (pending : th'.pending A h'.table = th.pending A h.table) : Settles A h h' th th' := by
  obtain ⟨queued, live, dead, retained⟩ := same.gaps
  refine ⟨?_, ?_, dead, .inr ⟨retained, same.dead.ge, ?_⟩⟩
  · unfold Thread.owed
    rw [queued, owed]
  · rw [live, pending]
  · rw [same.bytes, owed]

/-- Between points where nothing is owed only the gaps matter. -/
theorem of_gaps (even : th.point.Even) (even' : th'.point.Even)
    (delta : th'.cache.liveDelta = th.cache.liveDelta) (queued : h'.queuedGap = h.queuedGap)
    (live : h'.liveGap = h.liveGap) (dead : h'.deadGap = h.deadGap)
    (gains : (∃ k, th.point = .world k) ∨ h.Gains h' 0 0) : Settles A h h' th th' := by
  refine ⟨?_, ?_, dead, ?_⟩
  · unfold Thread.owed
    rw [queued, even.owed, even'.owed]
  · unfold Thread.pending
    rw [live, even.change, even'.change, even.counted, even'.counted, delta]
  · rwa [even.owed, even'.owed]

theorem of_even (even : th.point.Even) (even' : th'.point.Even)
    (delta : th'.cache.liveDelta = th.cache.liveDelta) (same : h.SameAccounts h') :
    Settles A h h' th th' := by
  obtain ⟨queued, live, dead, retained⟩ := same.gaps
  exact of_gaps even even' delta queued live dead
    (.inr ⟨retained, same.dead.ge, (same.bytes _).ge⟩)

end Settles

theorem foldLive_gap (h : Heap) (delta : Int) (past : Bool) :
    (Thread.foldLive h delta past).1.liveGap + BitVec.ofInt 64 delta =
      h.liveGap + BitVec.ofInt 64 (Thread.foldLive h delta past).2 := by
  unfold Thread.foldLive
  cases past with
  | false => rfl
  | true =>
      change BitVec.ofNat 64 (h.table.bytes .ofLive) - (h.liveBytes + BitVec.ofInt 64 delta) +
        BitVec.ofInt 64 delta = h.liveGap + 0
      unfold Heap.liveGap
      linear_combination

/-- A slot in the hands of a thread lies in a region in use, and has its class's
bytes. -/
theorem TableOk.slotBytes_eq {t : Table} {x : Slot} (ok : TableOk A t place)
    (used : place x ≠ .fresh) : t.slotBytes x = (A.entry (t.regionClass x)).size := by
  unfold Table.slotBytes
  rw [ok.entry _ (ok.used used)]
  rfl

/-- A huge release counts the block's bytes with its release. -/
theorem Settles.of_free {p : Nat} (even : th.point.Even) (even' : th'.point.Even)
    (delta : th'.cache.liveDelta = th.cache.liveDelta) (found : h.hugeFree p = some h') :
    Settles A h h' th th' := by
  obtain ⟨dead, more⟩ := Heap.deadGap_free found
  obtain ⟨i, block, -, -, -, rfl⟩ := hugeFree_heap found
  exact .of_gaps even even' delta rfl rfl dead (.inr ⟨rfl, more, Nat.le_refl _⟩)

section Moving

variable {t : T} {x : Slot} {key : CacheKey} {cache : ThreadCache}

/-- A slot's new word, where neither is queued: only the live bytes change. -/
theorem Heap.gap_setWord (ok : TableOk A h.table place) (used : place x ≠ .fresh) {w : Word}
    (before : Weight.ofQueued.of (h.table.word x) = 0) (after : Weight.ofQueued.of w = 0) :
    (h.table.setWord x w).bytes .ofQueued = h.table.bytes .ofQueued ∧
    { h with table := h.table.setWord x w }.liveGap +
        BitVec.ofNat 64 (Weight.ofLive.of (h.table.word x) * h.table.slotBytes x) =
      h.liveGap + BitVec.ofNat 64 (Weight.ofLive.of w * h.table.slotBytes x) := by
  have queued := ok.bytes_setWord (f := .ofQueued) used w
  have live := congrArg (BitVec.ofNat 64) (ok.bytes_setWord (f := .ofLive) used w)
  rw [before, after, Nat.zero_mul] at queued
  rw [BitVec.ofNat_add, BitVec.ofNat_add] at live
  refine ⟨queued, ?_⟩
  unfold liveGap
  linear_combination live

theorem slotBytes_setWord (t : Table) (x y : Slot) (w : Word) :
    (t.setWord x w).slotBytes y = t.slotBytes y := by
  unfold Table.slotBytes Table.setWord Table.setRegion
  dsimp only
  by_cases same : y.region = x.region
  · rw [same, Function.update_self]
    rfl
  · rw [Function.update_of_ne same]

/-- The charged slot becomes live. -/
theorem storeLive_settles {w : Want} {y : Entry} {a : Answer} (table : TableOk A h.table place)
    (taken : place y.place = .taken t)
    (here : PointOk A h.table cache (.storeLive w y))
    (step : Thread.step A h ⟨key, cache, .storeLive w y⟩ a = some (h', th')) :
    Settles A h h' ⟨key, cache, .storeLive w y⟩ th' := by
  obtain ⟨rfl, rfl⟩ := Prod.mk.inj (Option.some.inj step)
  have word := table.word y.place
  rw [taken] at word
  have bytes := table.slotBytes_eq (x := y.place) (by simp [taken])
  rw [show h.table.regionClass y.place = w.cls from here.2.2] at bytes
  obtain ⟨queued, live⟩ := Heap.gap_setWord (x := y.place) (w := ⟨w.size, .live⟩) table
    (by simp [taken]) (Weight.of_handed _ word) rfl
  rw [Weight.of_handed _ word, Weight.of_live, bytes] at live
  simp only [Weight.ofLive_live, Nat.zero_mul, Nat.one_mul] at live
  refine ⟨?_, ?_, rfl, .inr ⟨rfl, Nat.le_refl _, queued.ge⟩⟩
  · exact congrArg (fun n => BitVec.ofNat 64 n - h.quarantineBytes + 0) queued
  · change _ + (BitVec.ofInt 64 cache.liveDelta - BitVec.ofNat 64 (A.entry w.cls).size) =
      _ + (BitVec.ofInt 64 cache.liveDelta - BitVec.ofNat 64 0)
    linear_combination live

/-- A release's claim makes the slot one that is counted but not live. -/
theorem claim_settles {word : Word} {a : Answer} (table : TableOk A h.table place)
    (live : word.state = .live)
    (step : Thread.step A h ⟨key, cache, .claim x word⟩ a = some (h', th')) :
    Settles A h h' ⟨key, cache, .claim x word⟩ th' := by
  unfold Thread.step at step
  dsimp only at step
  split_ifs at step with same
  obtain ⟨rfl, rfl⟩ := Prod.mk.inj (Option.some.inj step)
  rw [← same] at live
  have placed := (table.live_iff x).mpr live
  obtain ⟨queued, gone⟩ := Heap.gap_setWord (x := x) (w := Word.claimed) table
    (by simp [placed]) (Weight.of_state _ live) rfl
  rw [Weight.of_state _ live, Weight.of_claimed] at gone
  simp only [Weight.ofLive_live, Weight.ofLive_claimed, Nat.zero_mul, Nat.one_mul] at gone
  refine ⟨?_, ?_, rfl, .inr ⟨rfl, Nat.le_refl _, queued.ge⟩⟩
  · exact congrArg (fun n => BitVec.ofNat 64 n - h.quarantineBytes + 0) queued
  · change _ + (BitVec.ofInt 64 cache.liveDelta - BitVec.ofNat 64 0) =
      _ + (BitVec.ofInt 64 cache.liveDelta -
        BitVec.ofNat 64 ((h.table.setWord x Word.claimed).slotBytes x))
    rw [slotBytes_setWord]
    linear_combination gone

theorem slotBytes_enqueue (t : Table) (x y : Slot) :
    (t.setRegion x.region ((t.region x.region).enqueue x.index)).slotBytes y = t.slotBytes y := by
  unfold Table.slotBytes Table.setRegion
  dsimp only
  by_cases same : y.region = x.region
  · rw [same, Function.update_self, (Region.sameKind_enqueue _ _).entry]
  · rw [Function.update_of_ne same]

/-- A queued slot is owed until its bytes are added. -/
theorem retire_settles {a : Answer} (table : TableOk A h.table place)
    (retiring : place x = .retiring t)
    (step : Thread.step A h ⟨key, cache, .retire x⟩ a = some (h', th')) :
    Settles A h h' ⟨key, cache, .retire x⟩ th' := by
  obtain ⟨rfl, rfl⟩ := Prod.mk.inj (Option.some.inj step)
  have claimed : (place x).Claimed := by
    rw [retiring]
    trivial
  have held := table.bytes_enqueue (f := .ofQueued) claimed
  have live := table.bytes_enqueue (f := .ofLive) claimed
  simp only [Weight.ofQueued_claimed, Weight.ofQueued_queued, Weight.ofLive_claimed,
    Weight.ofLive_queued, Nat.zero_mul, Nat.one_mul, Nat.add_zero] at held live
  have owed : (Point.retireAdd x).owed
      (h.table.setRegion x.region ((h.table.region x.region).enqueue x.index)) =
        h.table.slotBytes x := slotBytes_enqueue _ _ _
  have queued := congrArg (BitVec.ofNat 64) held
  rw [BitVec.ofNat_add] at queued
  refine ⟨?_, ?_, rfl, .inr ⟨rfl, Nat.le_refl _, (held.trans (congrArg _ owed.symm)).ge⟩⟩
  · change BitVec.ofNat 64 (Table.bytes _ _) - h.quarantineBytes + (0 : BitVec 64) =
      BitVec.ofNat 64 (Table.bytes _ _) - h.quarantineBytes +
        BitVec.ofNat 64 (Table.slotBytes _ x)
    rw [slotBytes_enqueue]
    linear_combination queued
  · change BitVec.ofNat 64 (Table.bytes _ _) - h.liveBytes +
        (BitVec.ofInt 64 cache.liveDelta - BitVec.ofNat 64 (h.table.slotBytes x)) =
      BitVec.ofNat 64 (Table.bytes _ _) - h.liveBytes +
        (BitVec.ofInt 64 cache.liveDelta - BitVec.ofNat 64 (Table.slotBytes _ x))
    rw [slotBytes_enqueue, live]

/-- The bytes that a flush has queued. -/
theorem flush_settles {c i bytes : Nat} {k : FlushFor} {a : Answer}
    (table : TableOk A h.table place)
    (own : ThreadOk A place t ((Point.flush c i bytes k).view h.table.regionClass) cache)
    (step : Thread.step A h ⟨key, cache, .flush c i bytes k⟩ a = some (h', th')) :
    Settles A h h' ⟨key, cache, .flush c i bytes k⟩ th' := by
  simp only [Thread.step] at step
  have segment := own.release c
  simp only [Point.view, Point.releaseHeld, if_true] at segment
  by_cases more : i < (cache.release c).count
  · rw [if_pos more] at step
    obtain ⟨rfl, rfl⟩ := Prod.mk.inj (Option.some.inj step)
    have short := runLength_le (cache.release c).slots ((cache.release c).slots i).region i
      ((cache.release c).count - i)
    generalize Thread.runLength (cache.release c).slots ((cache.release c).slots i).region i
      ((cache.release c).count - i) = n at short ⊢
    have held := table.bytes_enqueueRun (f := .ofQueued) (n := n) (by omega) segment
    have live := table.bytes_enqueueRun (f := .ofLive) (n := n) (by omega) segment
    simp only [Weight.ofQueued_claimed, Weight.ofQueued_queued, Weight.ofLive_claimed,
      Weight.ofLive_queued, Nat.zero_mul, Nat.one_mul, Nat.add_zero] at held live
    have queued := congrArg (BitVec.ofNat 64) held
    rw [BitVec.ofNat_add] at queued
    refine ⟨?_, ?_, rfl, .inr ⟨rfl, Nat.le_refl _, ?_⟩⟩
    · change BitVec.ofNat 64 (Table.bytes _ _) - h.quarantineBytes + BitVec.ofNat 64 bytes =
        BitVec.ofNat 64 (Table.bytes _ _) - h.quarantineBytes +
          BitVec.ofNat 64 (bytes + n * (A.entry c).size)
      rw [BitVec.ofNat_add]
      linear_combination queued
    · exact congrArg (fun n => BitVec.ofNat 64 n - h.liveBytes +
        (BitVec.ofInt 64 cache.liveDelta - BitVec.ofNat 64 0)) live
    · change h.table.bytes .ofQueued + (bytes + n * (A.entry c).size) ≤ Table.bytes _ _ + bytes
      dsimp only
      omega
  · rw [if_neg more] at step
    obtain ⟨rfl, rfl⟩ := Prod.mk.inj (Option.some.inj step)
    by_cases none : bytes = 0
    · exact .of_even none (by
        dsimp only [Thread.goto_point]
        rw [if_neg (not_not.mpr none)]
        exact even_flushed c k) rfl (.of_fields rfl rfl rfl)
    · refine .of_same (.of_fields rfl rfl rfl) ?_ ?_
      · dsimp only [Thread.goto_point]
        rw [if_pos none]
        rfl
      · unfold Thread.pending Thread.change
        dsimp only [Thread.goto_point, Thread.goto_cache]
        rw [if_pos none]
        rfl

theorem giveBack_settles {c i : Nat} {k : After} {a : Answer} (table : TableOk A h.table place)
    (own : ThreadOk A place t ((Point.giveBack c i k).view h.table.regionClass) cache)
    (step : Thread.step A h ⟨key, cache, .giveBack c i k⟩ a = some (h', th')) :
    Settles A h h' ⟨key, cache, .giveBack c i k⟩ th' := by
  simp only [Thread.step] at step
  have segment := own.alloc c
  simp only [Point.view, Point.allocHeld, if_true] at segment
  by_cases more : i < (cache.alloc c).count
  · rw [if_pos more] at step
    obtain ⟨rfl, rfl⟩ := Prod.mk.inj (Option.some.inj step)
    have cached : place ((cache.alloc c).slots i).place = .cached t c :=
      segment.mem (Nat.le_refl i) more
    have handed : (place ((cache.alloc c).slots i).place).Handed := by
      rw [cached]
      trivial
    exact .of_even trivial trivial rfl
      (.of_table (fun f => table.bytes_giveBack (f := f) handed) h.shadow)
  · rw [if_neg more] at step
    obtain ⟨rfl, rfl⟩ := Prod.mk.inj (Option.some.inj step)
    exact .of_even trivial (even_drainFrom A _ k) rfl (.of_fields rfl rfl rfl)

theorem resizeWord_settles {size : Nat} {a : Answer} (table : TableOk A h.table place)
    (live : place x = .live)
    (step : Thread.step A h ⟨key, cache, .resizeWord x size⟩ a = some (h', th')) :
    Settles A h h' ⟨key, cache, .resizeWord x size⟩ th' := by
  obtain ⟨rfl, rfl⟩ := Prod.mk.inj (Option.some.inj step)
  have state := (table.live_iff x).mp live
  have same (f : Weight) := table.bytes_setWord (f := f) (x := x) (by simp [live]) ⟨size, .live⟩
  simp only [Weight.of_state _ state, Weight.of_live] at same
  exact .of_even trivial trivial rfl
    (.of_table (fun f => Nat.add_right_cancel (same f)) h.shadow)

/-- The cache's change of the live bytes, folded in or not. -/
theorem folded_settles {p : Point} {delta : Int} {past : Bool}
    (owed : p.owed h.table = th.point.owed h.table)
    (moves : th.change + p.counted A h.table = delta + th.point.counted A h.table)
    (unlinks : p = .unlink → (Thread.foldLive h delta past).2 = 0) :
    Settles A h (Thread.foldLive h delta past).1 th
      ⟨th.key, { th.cache with liveDelta := (Thread.foldLive h delta past).2 }, p⟩ := by
  have gap := foldLive_gap h delta past
  have rest : (Thread.foldLive h delta past).1.table = h.table ∧
      (Thread.foldLive h delta past).1.queuedGap = h.queuedGap ∧
        (Thread.foldLive h delta past).1.deadGap = h.deadGap ∧
          (Thread.foldLive h delta past).1.huge = h.huge ∧
            (Thread.foldLive h delta past).1.retainedBytes = h.retainedBytes := by
    cases past <;> exact ⟨rfl, rfl, rfl, rfl, rfl⟩
  obtain ⟨table, queued, dead, huge, retained⟩ := rest
  generalize Thread.foldLive h delta past = result at gap table queued dead huge retained unlinks ⊢
  obtain ⟨h', delta'⟩ := result
  dsimp only at gap table queued dead huge retained unlinks ⊢
  have changed : Thread.change ⟨th.key, { th.cache with liveDelta := delta' }, p⟩ = delta' := by
    unfold Thread.change
    cases p with
    | unlink => exact (unlinks rfl).symm
    | _ => rfl
  have words := congrArg (BitVec.ofInt 64) moves
  rw [BitVec.ofInt_add, BitVec.ofInt_add, BitVec.ofInt_natCast, BitVec.ofInt_natCast] at words
  refine ⟨?_, ?_, dead, .inr ⟨retained, (congrArg Huge.deadBytes huge).ge, ?_⟩⟩
  · unfold Thread.owed
    rw [queued, table, owed]
  · unfold Thread.pending
    rw [changed, table]
    linear_combination gap + words
  · dsimp only
    rw [table, owed]

end Moving

/-- A thread's step. -/
theorem step_settles {t : T} {a : Answer} (table : TableOk A h.table place)
    (own : ThreadOk A place t (th.point.view h.table.regionClass) th.cache)
    (here : PointOk A h.table th.cache th.point) (taken : th.step A h a = some (h', th')) :
    Settles A h h' th th' := by
  obtain ⟨key, cache, point⟩ := th
  have branch := branch_of_step taken
  change Branch A h _ a point h' th' at branch
  cases branch with
  | goes next => exact .of_even next.even.1 next.even.2 rfl (.of_fields rfl rfl rfl)
  -- the search for a region with a slot
  | @popRegion w swept first region es R shadow popped =>
      have below : region < RegionCount := here.2.2.1.trans_le table.count
      have bytes (f : Weight) := table.bytes_popRegion (f := f) t below a.grant
        (if w.cached then A.cacheLimit w.cls else 1) h.shadow
      rw [popped] at bytes
      refine .of_even trivial (even_afterPop _ _ _ _ _) ?_ (.of_table bytes _)
      unfold Thread.storePopped
      dsimp only [Thread.goto_cache]
      split_ifs <;> rfl
  | setActive =>
      exact .of_even trivial (even_popped _ _ _) rfl
        ⟨fun _ => Table.bytes_congr fun _ _ => rfl, rfl, rfl⟩
  | takesSpare found =>
      exact .of_even trivial trivial rfl
        (.of_table (fun f => table.bytes_takeSpare (f := f) here.1.cls found) h.shadow)
  | setCount | swapHigh => exact .of_even trivial (even_reversal _ _ _) rfl (.of_fields rfl rfl rfl)
  | swapLow | swept => exact .of_even trivial trivial rfl (.of_fields rfl rfl rfl)
  -- the entry that an allocation takes
  | charge grown =>
      subst grown
      exact folded_settles rfl (Int.add_zero _).symm Point.noConfusion
  | takeTop | retireGained | unlink => exact .of_same (.of_fields rfl rfl rfl) rfl rfl
  | @addLive w =>
      refine ⟨rfl, ?_, rfl, .inr ⟨rfl, Nat.le_refl _, Nat.le_refl _⟩⟩
      change BitVec.ofNat 64 (h.table.bytes .ofLive) -
            (h.liveBytes + BitVec.ofNat 64 (A.entry w.cls).size) +
          (BitVec.ofInt 64 cache.liveDelta - 0) =
        BitVec.ofNat 64 (h.table.bytes .ofLive) - h.liveBytes +
          (BitVec.ofInt 64 cache.liveDelta - BitVec.ofNat 64 (A.entry w.cls).size)
      linear_combination
  | storeLive => exact storeLive_settles table ((own.taken _).mpr rfl) here taken
  | shadowLive => exact .of_even trivial (even_allocated _) rfl (.of_fields rfl rfl rfl)
  | hugeMade =>
      exact .of_even trivial (even_allocated _) rfl ⟨fun _ => rfl, h.deadBytes_insert _ _ _, rfl⟩
  -- a release, and what it adds to
  | hugeFreed _ found => exact .of_free trivial trivial rfl found
  | claim => exact claim_settles table here taken
  | @chooseCache x =>
      obtain ⟨kept, -, -⟩ := cacheFor_spec (A := A) ⟨key, cache, .chooseCache x⟩
        (h.table.regionClass x) a.cacheMapped
      refine .of_same (.of_fields rfl rfl rfl) rfl ?_
      exact congrArg (fun k : ThreadCache => BitVec.ofInt 64 k.liveDelta -
        BitVec.ofNat 64 (h.table.slotBytes x)) kept
  | @shadowDead _ cached => cases cached <;> exact .of_same (.of_fields rfl rfl rfl) rfl rfl
  | countFirst | slotFirst => exact .of_same (.of_fields rfl rfl rfl) rfl rfl
  | @pushCount x | @pushSlot x =>
      have retiring : place x = .retiring t := (own.retiring _).mpr rfl
      have bytes := table.slotBytes_eq (x := x) (by simp [retiring])
      exact .of_same (.of_fields rfl rfl rfl) rfl (congrArg (fun n =>
        BitVec.ofInt 64 cache.liveDelta - BitVec.ofNat 64 n) bytes.symm)
  | @credit c delta shrunk =>
      subst shrunk
      have moves : cache.liveDelta + 0 = cache.liveDelta - (A.entry c).size + (A.entry c).size := by
        omega
      refine folded_settles ?_ ?_ fun unlinks => ?_
      · split_ifs <;> rfl
      · split_ifs <;> exact moves
      · split_ifs at unlinks
  | retire => exact retire_settles table ((own.retiring _).mpr rfl) taken
  | @retireAdd x =>
      refine ⟨?_, rfl, rfl, .inr ⟨rfl, Nat.le_refl _, Nat.le_add_right _ _⟩⟩
      change BitVec.ofNat 64 _ - (h.quarantineBytes + BitVec.ofNat 64 (h.table.slotBytes x)) +
          BitVec.ofNat 64 (h.table.slotBytes x) =
        BitVec.ofNat 64 _ - h.quarantineBytes + 0
      linear_combination
  | @retireLive x =>
      refine ⟨rfl, ?_, rfl, .inr ⟨rfl, Nat.le_refl _, Nat.le_refl _⟩⟩
      change BitVec.ofNat 64 (h.table.bytes .ofLive) -
            (h.liveBytes + BitVec.ofInt 64 (-(h.table.slotBytes x : Int))) +
          (BitVec.ofInt 64 cache.liveDelta - BitVec.ofNat 64 (h.table.slotBytes x)) =
        BitVec.ofNat 64 (h.table.bytes .ofLive) - h.liveBytes +
          (BitVec.ofInt 64 cache.liveDelta - 0)
      rw [BitVec.ofInt_neg, BitVec.ofInt_natCast]
      linear_combination
  | @overBudget r =>
      obtain ⟨even, same, huge, counters⟩ := overBudget_even A h a.now r
      exact .of_even trivial even rfl (.of_fields same huge counters)
  -- the own cache's way back
  | flushRun | flushEnds => exact flush_settles table own taken
  | @flushAdd c bytes =>
      refine ⟨?_, rfl, rfl, .inr ⟨rfl, Nat.le_refl _, Nat.le_add_right _ _⟩⟩
      change BitVec.ofNat 64 _ - (h.quarantineBytes + BitVec.ofNat 64 bytes) +
          BitVec.ofNat 64 bytes =
        BitVec.ofNat 64 _ - h.quarantineBytes + 0
      linear_combination
  | flushGained => exact .of_even trivial (even_flushed _ _) rfl (.of_fields rfl rfl rfl)
  | giveBack | giveBackEnds => exact giveBack_settles table own taken
  | @fold k =>
      cases k with
      | sweep k => exact folded_settles rfl rfl Point.noConfusion
      | exit =>
          refine folded_settles rfl rfl fun _ => ?_
          unfold Thread.foldLive
          by_cases none : cache.liveDelta = 0 <;> simp [none]
  -- a sweep
  | lock => exact .of_even trivial trivial rfl (.of_fields rfl rfl rfl)
  | @world k =>
      obtain ⟨queued, dead, live⟩ := Heap.gaps_sweepWorld table a.world
      exact .of_gaps trivial trivial rfl queued live dead (.inl ⟨k, rfl⟩)
  | sweepUnlock => exact .of_even trivial (even_resume _) rfl (.of_fields rfl rfl rfl)
  -- a reallocation
  | @resizeMoves p size =>
      obtain ⟨even, kept⟩ := even_allocate A ⟨key, cache, .resize p size⟩ size 0 (.move p)
        a.cacheMapped
      exact .of_even trivial even (congrArg ThreadCache.liveDelta kept) (.of_fields rfl rfl rfl)
  | resizeShadow => exact .of_even trivial trivial rfl (.of_fields rfl rfl rfl)
  | resizeWord => exact resizeWord_settles table (own.resizing _ rfl) taken

/-- A call starts and ends with nothing owed. -/
theorem call_settles {call : Call} {mapped : Bool} (idle : th.point = .idle)
    (started : th.call A mapped call = some th') : Settles A h h th th' := by
  have even : th.point.Even := by
    rw [idle]
    trivial
  cases call with
  | alloc size alignment =>
      obtain rfl := Option.some.inj started
      obtain ⟨even', kept⟩ := even_allocate A th size alignment .request mapped
      exact .of_even even even' (congrArg ThreadCache.liveDelta kept) (.of_fields rfl rfl rfl)
  | free p =>
      obtain rfl := Option.some.inj started
      split_ifs
      · exact .of_even even even rfl (.of_fields rfl rfl rfl)
      · exact .of_even even trivial rfl (.of_fields rfl rfl rfl)
  | realloc p size =>
      obtain rfl := Option.some.inj started
      split_ifs
      · obtain ⟨even', kept⟩ := even_allocate A th size 0 .request mapped
        exact .of_even even even' (congrArg ThreadCache.liveDelta kept) (.of_fields rfl rfl rfl)
      · exact .of_even even trivial rfl (.of_fields rfl rfl rfl)
  | exit =>
      unfold Thread.call at started
      dsimp only at started
      split_ifs at started
      obtain rfl := Option.some.inj started
      exact .of_even even rfl rfl (.of_fields rfl rfl rfl)

theorem Partition.settles (ok : Partition A s place) (taken : s.stepOf A e = some (h', th')) :
    Settles A s.heap h' (s.thread e.thread) th' := by
  unfold State.stepOf at taken
  cases called : e.call with
  | none =>
      rw [called] at taken
      exact step_settles ok.table (ok.thread _) (ok.point _) taken
  | some call =>
      rw [called] at taken
      dsimp only at taken
      split_ifs at taken with allowed
      obtain ⟨th', started, eq⟩ := Option.map_eq_some_iff.mp taken
      obtain ⟨rfl, rfl⟩ := Prod.mk.inj eq
      exact call_settles allowed.1 started

/-! ## Every run -/

/-- What another thread owes and has counted does not depend on a step. -/
theorem Partition.owes_grows (ok : Partition A s place) {t : Table} (grows : s.heap.table.Grows t)
    (u : T) : (s.thread u).point.owed t = (s.thread u).point.owed s.heap.table ∧
      (s.thread u).pending A t = (s.thread u).pending A s.heap.table := by
  have retiring (x : Slot) (here : (s.thread u).point.retiring = some x) :
      t.slotBytes x = s.heap.table.slotBytes x := by
    have placed := ((ok.thread u).retiring x).mpr here
    exact grows.bytes_eq (ok.table.used (by simp [placed]))
  have own := ok.point u
  unfold Thread.pending
  cases point : (s.thread u).point with
  | retireAdd x | retireGained x | retireLive x =>
      rw [point] at own
      have bytes := grows.bytes_eq (x := x) own
      simp only [Point.owed, Point.counted, bytes, and_self]
  | chooseCache x | shadowDead x | push x | pushCount x | pushSlot x | retire x =>
      rw [point] at retiring
      simp only [Point.owed, Point.counted, retiring x rfl, and_self]
  | _ => exact ⟨rfl, rfl⟩

section Run

variable [Fintype T]

/-- What each count lacks is what the threads have still to add. -/
structure Accounted (A : Arena) (s : State T) : Prop where
  queued : Reckoned s.heap.queuedGap fun t => (s.thread t).owed s.heap.table
  live : Reckoned s.heap.liveGap fun t => (s.thread t).pending A s.heap.table
  dead : s.heap.deadGap = 0

theorem bytes_initial (A : Arena) (f : Weight) : (Table.initial A).bytes f = 0 := by
  unfold Table.bytes
  refine Finset.sum_eq_zero fun r _ => ?_
  have empty : ((Table.initial A).region r).tally f = 0 := by
    unfold Table.initial
    dsimp only
    split_ifs <;> rfl
  rw [empty, Nat.zero_mul]

theorem accounted_initial (A : Arena) (byte : Nat → UInt8) :
    Accounted A (State.initial A byte : State T) := by
  refine ⟨?_, ?_, sub_zero (0 : BitVec 64)⟩
  · have gap : (State.initial A byte : State T).heap.queuedGap = 0 :=
      congrArg (fun n => BitVec.ofNat 64 n - 0) (bytes_initial A .ofQueued)
    unfold Reckoned
    rw [gap]
    symm
    exact Finset.sum_eq_zero fun _ _ => rfl
  · have gap : (State.initial A byte : State T).heap.liveGap = 0 :=
      congrArg (fun n => BitVec.ofNat 64 n - 0) (bytes_initial A .ofLive)
    unfold Reckoned
    rw [gap]
    symm
    exact Finset.sum_eq_zero fun _ _ => sub_zero (0 : BitVec 64)

variable [DecidableEq T]

theorem Accounted.step (accounted : Accounted A s) (ok : Partition A s place)
    (taken : s.step A e = some s') : Accounted A s' := by
  obtain ⟨h, th, found, rfl⟩ := State.step_eq_some taken
  obtain ⟨place', moved⟩ := ok.moved found
  have settles := ok.settles found
  refine ⟨accounted.queued.step (t := e.thread) (fun u other => ?_) ?_,
    accounted.live.step (t := e.thread) (fun u other => ?_) ?_, settles.dead.trans accounted.dead⟩
  · dsimp only
    rw [Function.update_of_ne other]
    exact congrArg (BitVec.ofNat 64) (ok.owes_grows moved.grows u).1
  · dsimp only
    rw [Function.update_self]
    exact settles.queued
  · dsimp only
    rw [Function.update_of_ne other]
    exact (ok.owes_grows moved.grows u).2
  · dsimp only
    rw [Function.update_self]
    exact settles.live

theorem accounted_run {byte : Nat → UInt8}
    (run : Run (State.step A) State.NoRace (.initial A byte) s) :
    (∃ place, Partition A s place) ∧ Accounted A s := by
  refine run.invariant (I := fun s => (∃ place, Partition A s place) ∧ Accounted A s)
    ⟨⟨_, partition_initial A byte⟩, accounted_initial A byte⟩ ?_
  rintro s e s' ⟨⟨place, ok⟩, accounted⟩ quiet taken
  exact ⟨ok.step quiet taken, accounted.step ok taken⟩

end Run

end WeaveC.Alloc
