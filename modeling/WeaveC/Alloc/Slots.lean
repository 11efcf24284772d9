import WeaveC.Alloc.Partition

/-!
# Where memory says a slot is

The places read off the machine's memory.  In every state that is reached
without a release racing a reallocation in place, memory puts every slot in
exactly one place, and no list or cache holds a slot twice.
-/

namespace WeaveC.Alloc

open WeaveC.Library

variable {T : Type} {A : Arena} {place : Slot → Place T}

namespace State

/-- The slots of class `c` a thread's cache holds for allocations.  While a
refill, a reversal or a drain is under way its count does not say it. -/
def allocHeld (s : State T) (t : T) (c : Nat) : Held :=
  (s.thread t).point.allocHeld c ((s.thread t).cache.alloc c)

/-- The slots of class `c` a thread's cache holds that were released. -/
def releaseHeld (s : State T) (t : T) (c : Nat) : Held :=
  (s.thread t).point.releaseHeld s.heap.table.regionClass c ((s.thread t).cache.release c)

/-- What memory says of slot `x`. -/
def At (s : State T) (x : Slot) : Place T → Prop
  | .fresh => (s.heap.table.region x.region).bump ≤ x.index
  | .free =>
      let R := s.heap.table.region x.region
      ∃ l, Chain R.nextOf R.freeHead l ∧ x.index ∈ l
  | .cached t c =>
      let held := s.allocHeld t c
      ∃ i, held.low ≤ i ∧ i < held.high ∧ (held.slots i).place = x
  | .taken t => (s.thread t).point.taken = some x
  | .live => (s.heap.table.word x).state = .live
  | .retiring t => (s.thread t).point.retiring = some x
  | .released t c =>
      let held := s.releaseHeld t c
      ∃ i, held.low ≤ i ∧ i < held.high ∧ (held.slots i).place = x
  | .queued =>
      let R := s.heap.table.region x.region
      ∃ l, Queue R.nextOf R.deadHead R.deadTail l ∧ x.index ∈ l

end State

theorem Segment.exists_iff {α : Type*} {f : Nat → α} {low high : Nat} {S : Set α}
    (segment : Segment f low high S) (x : α) :
    (∃ i, low ≤ i ∧ i < high ∧ f i = x) ↔ x ∈ S := by
  constructor
  · rintro ⟨i, above, below, rfl⟩
    exact segment.mem above below
  · intro mem
    exact segment.exists_of_mem mem

namespace Partition

variable {s : State T}

/-- Memory puts a slot where the abstract heap has it. -/
theorem at_iff (ok : Partition A s place) (x : Slot) (p : Place T) :
    s.At x p ↔ place x = p := by
  have region := ok.table.region x.region
  cases p with
  | fresh => exact (region.fresh x.index).symm
  | free =>
      obtain ⟨l, chain, mem⟩ := region.free
      constructor
      · rintro ⟨l', chain', listed⟩
        rw [chain'.unique chain] at listed
        exact (mem x.index).mp listed
      · intro free
        exact ⟨l, chain, (mem x.index).mpr free⟩
  | cached t c => exact Segment.exists_iff ((ok.thread t).alloc c) x
  | taken t => exact ((ok.thread t).taken x).symm
  | live => exact (ok.table.live_iff x).symm
  | retiring t => exact ((ok.thread t).retiring x).symm
  | released t c => exact Segment.exists_iff ((ok.thread t).release c) x
  | queued =>
      obtain ⟨l, queue, mem⟩ := region.queue
      constructor
      · rintro ⟨l', queue', listed⟩
        rw [queue'.chain.unique queue.chain] at listed
        exact (mem x.index).mp listed
      · intro queued
        exact ⟨l, queue, (mem x.index).mpr queued⟩

/-- Slots that have been handed out lie apart. -/
theorem apart (ok : Partition A s place) {x y : Slot} (other : x ≠ y)
    (used : x.index < (s.heap.table.region x.region).bump)
    (used' : y.index < (s.heap.table.region y.region).bump) :
    s.heap.table.slotBase A x + s.heap.table.slotBytes x ≤ s.heap.table.slotBase A y ∨
      s.heap.table.slotBase A y + s.heap.table.slotBytes y ≤ s.heap.table.slotBase A x := by
  wlog order : x.region < y.region ∨ x.region = y.region ∧ x.index < y.index generalizing x y
  · refine (this other.symm used' used ?_).symm
    by_contra none
    refine other ?_
    obtain ⟨r, i⟩ := x
    obtain ⟨r', i'⟩ := y
    simp only [Slot.mk.injEq] at *
    omega
  left
  have inside : (x.index + 1) * (s.heap.table.region x.region).entry.size ≤ A.regionBytes :=
    calc (x.index + 1) * (s.heap.table.region x.region).entry.size
        ≤ (s.heap.table.region x.region).entry.capacity *
            (s.heap.table.region x.region).entry.size :=
          Nat.mul_le_mul_right _ (used.trans_le (ok.table.region x.region).bump)
      _ ≤ A.regionBytes := (ok.table.region x.region).whole
  unfold Table.slotBase Table.slotBytes Arena.regionStart
  unfold Arena.regionBytes at inside
  rw [Nat.shiftLeft_eq, one_mul] at inside
  simp only [Nat.shiftLeft_eq]
  rcases order with before | ⟨same, before⟩
  · have step : (x.region + 1) * 2 ^ A.shift ≤ y.region * 2 ^ A.shift :=
      Nat.mul_le_mul_right _ before
    rw [Nat.add_mul, one_mul] at step inside
    omega
  · rw [same] at inside ⊢
    have step : (x.index + 1) * (s.heap.table.region y.region).entry.size ≤
        y.index * (s.heap.table.region y.region).entry.size :=
      Nat.mul_le_mul_right _ before
    rw [Nat.add_mul, one_mul] at step
    omega

end Partition

/-- Each slot is in exactly one place, and the lists and caches hold no slot
twice; a slot that is made live was not live, and slots in use lie apart. -/
structure Partitioned (A : Arena) (s : State T) : Prop where
  one : ∀ x, ∃! p, s.At x p
  free : ∀ r, ∃ l, Chain (s.heap.table.region r).nextOf (s.heap.table.region r).freeHead l ∧
    l.Nodup
  queue : ∀ r, ∃ l, Queue (s.heap.table.region r).nextOf (s.heap.table.region r).deadHead
    (s.heap.table.region r).deadTail l ∧ l.Nodup
  alloc : ∀ t c, Set.InjOn (fun i => ((s.allocHeld t c).slots i).place)
    (Set.Ico (s.allocHeld t c).low (s.allocHeld t c).high)
  release : ∀ t c, Set.InjOn (fun i => ((s.releaseHeld t c).slots i).place)
    (Set.Ico (s.releaseHeld t c).low (s.releaseHeld t c).high)
  made : ∀ t w e, (s.thread t).point = .storeLive w e → ¬ s.At e.place .live
  apart : ∀ x y, x ≠ y → ¬ s.At x .fresh → ¬ s.At y .fresh →
    s.heap.table.slotBase A x + s.heap.table.slotBytes x ≤ s.heap.table.slotBase A y ∨
      s.heap.table.slotBase A y + s.heap.table.slotBytes y ≤ s.heap.table.slotBase A x

theorem Partition.partitioned {s : State T} (ok : Partition A s place) : Partitioned A s where
  one x := by
    refine ⟨place x, (ok.at_iff x _).mpr rfl, fun p here => ?_⟩
    exact ((ok.at_iff x p).mp here).symm
  free r := by
    obtain ⟨l, chain, -⟩ := (ok.table.region r).free
    exact ⟨l, chain, chain.nodup⟩
  queue r := by
    obtain ⟨l, queue, -⟩ := (ok.table.region r).queue
    exact ⟨l, queue, queue.chain.nodup⟩
  alloc t c := ((ok.thread t).alloc c).injOn
  release t c := ((ok.thread t).release c).injOn
  made t w e point live := by
    have taken : place e.place = .taken t := by
      refine ((ok.thread t).taken e.place).mpr ?_
      rw [point]
      rfl
    have here := (ok.at_iff _ _).mp live
    rw [taken] at here
    exact absurd here (by simp)
  apart x y other used used' := by
    exact ok.apart other (Nat.not_le.mp used) (Nat.not_le.mp used')

/-! ## Over every run -/

section Runs

variable [DecidableEq T]

/-- The slot partition holds in every state that any interleaving of any number
of threads reaches. -/
theorem slot_partition {s : State T} {byte : Nat → UInt8}
    (run : Run (State.step A) State.NoRace (.initial A byte) s) : Partitioned A s := by
  obtain ⟨place, ok⟩ := partition_run run
  exact ok.partitioned

/-- An allocation of 40000 bytes after its critical section: its slot is not
live yet. -/
def takingOne : List (Event Unit) :=
  [.enter () (.alloc 40000 0), .next (), .next ()]

/-- Its slot is in none of the places but the allocation itself. -/
theorem slot_taken : ∃ s : State Unit,
    Run (State.step .sample) State.NoRace (.initial .sample fun _ => 0) s ∧
      ¬ s.At ⟨40, 0⟩ .fresh ∧ ¬ s.At ⟨40, 0⟩ .live ∧ (∀ t c, ¬ s.At ⟨40, 0⟩ (.cached t c)) ∧
      (∀ t, ¬ s.At ⟨40, 0⟩ (.retiring t)) ∧ (∀ t c, ¬ s.At ⟨40, 0⟩ (.released t c)) ∧
      ¬ s.At ⟨40, 0⟩ .queued ∧ ¬ s.At ⟨40, 0⟩ .free := by
  obtain ⟨s, run, taken⟩ : ∃ s : State Unit,
      Run (State.step .sample) State.NoRace (.initial .sample fun _ => 0) s ∧
        (s.thread ()).point.taken = some ⟨40, 0⟩ :=
    Run.exists_exec takingOne (by decide +kernel)
  refine ⟨s, run, ?_⟩
  obtain ⟨place, ok⟩ := partition_run run
  have here : place ⟨40, 0⟩ = .taken () := ((ok.at_iff _ (.taken ())).mp taken)
  simp [ok.at_iff, here]

theorem slot_partition_taking : ∃ s : State Unit,
    Run (State.step .sample) State.NoRace (.initial .sample fun _ => 0) s ∧
      (s.thread ()).point.taken = some ⟨40, 0⟩ ∧ Partitioned .sample s := by
  obtain ⟨s, run, taken⟩ : ∃ s : State Unit,
      Run (State.step .sample) State.NoRace (.initial .sample fun _ => 0) s ∧
        (s.thread ()).point.taken = some ⟨40, 0⟩ :=
    Run.exists_exec takingOne (by decide +kernel)
  exact ⟨s, run, taken, slot_partition run⟩

end Runs

end WeaveC.Alloc
