import WeaveC.Alloc.Accounts
import Mathlib.Algebra.Order.BigOperators.Group.Finset
import Mathlib.Algebra.Order.BigOperators.Group.List
import Mathlib.Algebra.Order.Ring.Nat

/-!
# When the counts are exact

No count of held bytes ever reaches 2^64, so a count is exact whenever no
thread has still to add to it.  A sweep that finds a thread between its
queueing and its adding takes off bytes that were not added yet; where no
sweep does, no count wraps, and what a release finds held beyond what the last
sweep left is what was released since.
-/

namespace WeaveC.Alloc

open WeaveC.Library

variable {T : Type} {A : Arena} {place : Slot → Place T} {h h' : Heap} {th th' : Thread}
  {s s' : State T} {e : Event T} {f : Weight}

/-! ## Bounds -/

theorem TableOk.bytes_le {t : Table} (ok : TableOk A t place) (unit : ∀ w, f.of w ≤ 1) :
    t.bytes f ≤ A.bytes := by
  have region (r : Nat) : (t.region r).tally f * (t.region r).entry.size ≤ A.regionBytes := by
    have inside := ok.region r
    have few : (t.region r).tally f ≤ (t.region r).bump := by
      have each := Finset.sum_le_card_nsmul (Finset.range (t.region r).bump)
        (fun i => f.of ((t.region r).words i)) 1 fun i _ => unit _
      rw [Finset.card_range, smul_eq_mul, Nat.mul_one] at each
      exact each
    exact (Nat.mul_le_mul_right _ (few.trans inside.bump)).trans inside.whole
  have sum := Finset.sum_le_card_nsmul (Finset.range RegionCount)
    (fun r => (t.region r).tally f * (t.region r).entry.size) A.regionBytes fun r _ => region r
  unfold Table.bytes
  rw [A.bytes_eq]
  rwa [Finset.card_range, smul_eq_mul] at sum

theorem Weight.unit_ofQueued (w : Word) : Weight.ofQueued.of w ≤ 1 := by
  unfold Weight.of
  cases w.state with
  | dead =>
      dsimp only
      split_ifs
      · exact Nat.zero_le _
      · exact Nat.le_refl _
  | _ => exact Nat.zero_le _

theorem Weight.unit_ofLive (w : Word) : Weight.ofLive.of w ≤ 1 := by
  unfold Weight.of
  cases w.state with
  | live => exact Nat.le_refl _
  | dead =>
      dsimp only
      split_ifs <;> exact Nat.zero_le _
  | _ => exact Nat.zero_le _

/-- Mappings in address order take no more than the space they lie in. -/
theorem mapped_le {blocks : List HugeBlock} {low high : Nat} (sorted : blocks.Pairwise HugeBlock.Before)
    (above : ∀ b ∈ blocks, low ≤ b.map) (below : ∀ b ∈ blocks, b.map + b.mapBytes ≤ high)
    (order : low ≤ high) : low + (blocks.map HugeBlock.mapBytes).sum ≤ high := by
  induction blocks generalizing low with
  | nil => exact order
  | cons b blocks inductionHypothesis =>
      obtain ⟨first, rest⟩ := List.pairwise_cons.mp sorted
      have start := above b List.mem_cons_self
      have end' := below b List.mem_cons_self
      have tail := inductionHypothesis rest first
        (fun c mem => below c (List.mem_cons_of_mem _ mem)) end'
      rw [List.map_cons, List.sum_cons]
      omega

theorem Sound.deadBytes_le (ok : Sound A s) (pages : 16 ∣ A.page)
    (ordered : s.heap.huge.Ordered A) : s.heap.huge.deadBytes ≤ 2 ^ A.bits := by
  have mapped := mapped_le ordered.sorted (fun _ _ => Nat.zero_le _)
    (fun b mem => (ok.blocks.block b mem).window.le) (Nat.zero_le _)
  rw [Nat.zero_add] at mapped
  refine (List.sum_le_sum fun b mem => ?_).trans mapped
  have block := ok.blocks.block b mem
  have room := block.room
  have inside := block.inside
  have used := (used_le_pageBytes pages b.size).1
  unfold usedBytes at used
  unfold HugeBlock.heldBytes
  split_ifs
  · exact Nat.zero_le _
  · omega

theorem Arena.window_lt (A : Arena) : 2 ^ A.bits ≤ 2 ^ 56 ∧ A.bytes < 2 ^ 56 := by
  have wide : 2 ^ A.bits ≤ 2 ^ 56 := Nat.pow_le_pow_right (by decide) A.window.2
  have inside := A.inside
  rw [A.bytes_eq, A.regionBytes_eq]
  omega

/-- A count that lacks nothing is the count of fewer than 2^64 bytes. -/
theorem toNat_of_gap {held : Nat} {count : BitVec 64} (small : held < 2 ^ 64)
    (gap : BitVec.ofNat 64 held - count = 0) : count.toNat = held := by
  rw [← sub_eq_zero.mp gap, BitVec.toNat_ofNat, Nat.mod_eq_of_lt small]

/-! ## The counts -/

section Run

variable [Fintype T] [DecidableEq T]

/-- In every reachable state each count is right up to what the threads between
a move and its count have still to add, and exact when none has. -/
theorem accounts_exact (pages : 16 ∣ A.page) {byte : Nat → UInt8}
    (run : Run (State.step A) State.NoRace (.initial A byte) s) :
    s.heap.quarantineBytes + ∑ t, (s.thread t).owed s.heap.table =
        BitVec.ofNat 64 (s.heap.table.bytes .ofQueued) ∧
      s.heap.liveBytes + ∑ t, (s.thread t).pending A s.heap.table =
        BitVec.ofNat 64 (s.heap.table.bytes .ofLive) ∧
      s.heap.hugeDeadBytes.toNat = s.heap.huge.deadBytes ∧
      ((∀ t, (s.thread t).owed s.heap.table = 0) →
        s.heap.quarantineBytes.toNat = s.heap.table.bytes .ofQueued) ∧
      ((∀ t, (s.thread t).pending A s.heap.table = 0) →
        s.heap.liveBytes.toNat = s.heap.table.bytes .ofLive) := by
  obtain ⟨⟨place, partition⟩, accounted⟩ := accounted_run run
  obtain ⟨wide, arena⟩ := A.window_lt
  have few {f : Weight} (unit : ∀ w, f.of w ≤ 1) : s.heap.table.bytes f < 2 ^ 64 :=
    (partition.table.bytes_le unit).trans_lt (by omega)
  have dead := (sound_run pages run).deadBytes_le pages (ordered_run run)
  have queued := accounted.queued
  have live := accounted.live
  unfold Reckoned Heap.queuedGap at queued
  unfold Reckoned Heap.liveGap at live
  refine ⟨?_, ?_, toNat_of_gap (by omega) accounted.dead, fun nobody => ?_, fun nobody => ?_⟩
  · rw [← queued]
    exact add_sub_cancel _ _
  · rw [← live]
    exact add_sub_cancel _ _
  · exact toNat_of_gap (few Weight.unit_ofQueued) (accounted.queued.settled nobody)
  · exact toNat_of_gap (few Weight.unit_ofLive) (accounted.live.settled nobody)

end Run

/-- An object of `size` bytes allocated at `p` and released, both without a cache,
and `n` steps of its release. -/
def slotReleased {T : Type} (t : T) (size p n : Nat) : List (Event T) :=
  .enter t (.alloc size 0) :: List.replicate 5 (.next t) ++
    .enter t (.free p) :: List.replicate n (.next t)

/-- An allocation of 40000 bytes released up to the addition of its slot's bytes. -/
def queuedUncounted : List (Event Unit) := slotReleased () 40000 0x1480000000 5

theorem accounts_exact_queued : ∃ s : State Unit,
    Run (State.step .sample) State.NoRace (.initial .sample fun _ => 0) s ∧
      (s.thread ()).point = .retireAdd ⟨40, 0⟩ ∧
      s.heap.quarantineBytes + ∑ t, (s.thread t).owed s.heap.table =
        BitVec.ofNat 64 (s.heap.table.bytes .ofQueued) := by
  obtain ⟨s, run, point⟩ : ∃ s : State Unit,
      Run (State.step .sample) State.NoRace (.initial .sample fun _ => 0) s ∧
        (s.thread ()).point = .retireAdd ⟨40, 0⟩ :=
    Run.exists_exec queuedUncounted (by decide +kernel)
  exact ⟨s, run, point, (accounts_exact (by decide) run).1⟩

/-! ## Sweeps that find nobody owing -/

/-- A sweep's section finds every thread with the bytes it queued counted. -/
def State.Quiet (s : State T) (e : Event T) : Prop :=
  s.NoRace e ∧ ((s.thread e.thread).point.sweeps = true →
    ∀ t, (s.thread t).point.owed s.heap.table = 0)

instance [Fintype T] (s : State T) (e : Event T) : Decidable (s.Quiet e) :=
  inferInstanceAs (Decidable (_ ∧ _))

/-- What a sweep's section stores as retained. -/
theorem retained_sweepWorld (A : Arena) (h : Heap) (answer : Heap.WorldAnswer) :
    (h.sweepWorld A answer).2.retainedBytes =
        (h.sweepWorld A answer).2.quarantineBytes + (h.sweepWorld A answer).2.hugeDeadBytes ∨
      (h.sweepWorld A answer).2.retainedBytes = h.retainedBytes ∧
        (h.sweepWorld A answer).2.table.bytes .ofQueued = h.table.bytes .ofQueued ∧
          (h.sweepWorld A answer).2.huge.deadBytes = h.huge.deadBytes := by
  by_cases marks : h.Marks answer
  · rw [Heap.sweepWorld_of_marks marks]
    exact .inl rfl
  · rcases (Heap.sweepWorld_of_not_marks (A := A) marks).2 with eq | eq
    · rw [eq]
      exact .inr ⟨rfl, rfl, rfl⟩
    · rw [eq]
      exact .inr ⟨rfl, TableOk.bytes_sameSlots (h.prepared_sameSlots answer), rfl⟩

section Run

variable [Fintype T] [DecidableEq T]

/-- The bytes that all threads have queued and not counted yet. -/
def State.owed (s : State T) : Nat := ∑ t, (s.thread t).point.owed s.heap.table

/-- No thread owes more than is queued, and what the last sweep left is still
held. -/
structure Covered (s : State T) : Prop where
  owed : s.owed ≤ s.heap.table.bytes .ofQueued
  retained : s.heap.retainedBytes.toNat + s.owed ≤
    s.heap.table.bytes .ofQueued + s.heap.huge.deadBytes

/-- A step changes what is owed by what the thread that takes it comes to owe. -/
theorem Partition.owed_step (ok : Partition A s place) (taken : s.stepOf A e = some (h', th')) :
    State.owed (⟨h', Function.update s.thread e.thread th', s.linked e.thread th'⟩ : State T) +
      (s.thread e.thread).point.owed s.heap.table = s.owed + th'.point.owed h'.table := by
  obtain ⟨place', moved⟩ := ok.moved taken
  have same : (fun u => (Function.update s.thread e.thread th' u).point.owed h'.table) =
      Function.update (fun u => (s.thread u).point.owed s.heap.table) e.thread
        (th'.point.owed h'.table) := by
    funext u
    by_cases self : u = e.thread
    · rw [self, Function.update_self, Function.update_self]
    · rw [Function.update_of_ne self, Function.update_of_ne self]
      exact (ok.owes_grows moved.grows u).1
  unfold State.owed
  dsimp only
  rw [same]
  exact sum_update_add (Finset.mem_univ e.thread) _

theorem Covered.step (covered : Covered s) (accounted : Accounted A s')
    (ok : Partition A s place) (quiet : s.Quiet e) (taken : s.step A e = some s') :
    Covered s' := by
  obtain ⟨h, th, found, rfl⟩ := State.step_eq_some taken
  have settles := ok.settles found
  have total := ok.owed_step found
  obtain ⟨owed, retained⟩ := covered
  rcases settles.gains with ⟨k, world⟩ | gains
  · -- a sweep's section: nobody owes before it, nor after
    have nobody : s.owed = 0 := by
      refine Finset.sum_eq_zero fun t _ => quiet.2 ?_ t
      rw [world]
      rfl
    have inside := stepOf_inside found (by rw [world]; exact Point.noConfusion)
    unfold Thread.step at inside
    simp only [world] at inside
    rw [nobody, world] at total
    split_ifs at inside
    · obtain ⟨rfl, rfl⟩ := Prod.mk.inj (Option.some.inj inside)
      have none : State.owed (⟨(s.heap.sweepWorld A e.answer.world).2, Function.update s.thread
          e.thread ((s.thread e.thread).goto (.swept k (s.heap.sweepWorld A e.answer.world).1)),
          s.linked e.thread ((s.thread e.thread).goto
            (.swept k (s.heap.sweepWorld A e.answer.world).1))⟩ : State T) = 0 := total
      refine ⟨none ▸ Nat.zero_le _, ?_⟩
      rw [none, Nat.add_zero]
      rcases retained_sweepWorld A s.heap e.answer.world with stored | ⟨same, queued, dead⟩
      · have counted := accounted.queued.settled fun t =>
          congrArg (BitVec.ofNat 64) (Finset.sum_eq_zero_iff.mp none t (Finset.mem_univ t))
        have counted' := accounted.dead
        dsimp only at counted counted' ⊢
        rw [stored, ← sub_eq_zero.mp counted, ← sub_eq_zero.mp counted', ← BitVec.ofNat_add,
          BitVec.toNat_ofNat]
        exact Nat.mod_le _ _
      · dsimp only
        rw [same, queued, dead]
        omega
    · obtain ⟨rfl, rfl⟩ := Prod.mk.inj (Option.some.inj inside)
      have none : State.owed (⟨s.heap, Function.update s.thread e.thread
          ((s.thread e.thread).goto (.sweepUnlock k)), s.linked e.thread
            ((s.thread e.thread).goto (.sweepUnlock k))⟩ : State T) = 0 := total
      refine ⟨none ▸ Nat.zero_le _, ?_⟩
      rw [none, Nat.add_zero]
      exact (Nat.le_add_right _ _).trans retained
  · obtain ⟨same, dead, queued⟩ := gains
    constructor
    · dsimp only
      omega
    · dsimp only
      rw [same]
      omega

theorem covered_run {byte : Nat → UInt8}
    (run : Run (State.step A) State.Quiet (.initial A byte) s) :
    ((∃ place, Partition A s place) ∧ Accounted A s) ∧ Covered s := by
  refine run.invariant
    (I := fun s => ((∃ place, Partition A s place) ∧ Accounted A s) ∧ Covered s)
    ⟨⟨⟨_, partition_initial A byte⟩, accounted_initial A byte⟩, ?_⟩ ?_
  · have none : (State.initial A byte : State T).owed = 0 := Finset.sum_eq_zero fun _ _ => rfl
    refine ⟨none ▸ Nat.zero_le _, ?_⟩
    rw [none]
    exact Nat.zero_le _
  · rintro s e s' ⟨⟨⟨place, ok⟩, accounted⟩, covered⟩ quiet taken
    have accounted' := accounted.step ok taken
    exact ⟨⟨ok.step quiet.1 taken, accounted'⟩, covered.step accounted' ok quiet taken⟩

/-- What a count says, no count having wrapped: what is queued less what is
owed, what the released huge blocks hold, and no less than the last sweep left. -/
structure Counted (s : State T) : Prop where
  queued : s.heap.quarantineBytes.toNat + s.owed = s.heap.table.bytes .ofQueued
  dead : s.heap.hugeDeadBytes.toNat = s.heap.huge.deadBytes
  retained : s.heap.retainedBytes.toNat ≤
    s.heap.quarantineBytes.toNat + s.heap.hugeDeadBytes.toNat
  small : s.heap.quarantineBytes.toNat < 2 ^ 56 ∧ s.heap.hugeDeadBytes.toNat ≤ 2 ^ 56

theorem counted_run (pages : 16 ∣ A.page) {byte : Nat → UInt8}
    (run : Run (State.step A) State.Quiet (.initial A byte) s) : Counted s := by
  obtain ⟨⟨⟨place, partition⟩, accounted⟩, owed, retained⟩ := covered_run run
  obtain ⟨wide, arena⟩ := A.window_lt
  have few := partition.table.bytes_le Weight.unit_ofQueued
  have dead := (sound_run pages (run.mono fun _ _ quiet => quiet.1)).deadBytes_le pages
    (ordered_run run)
  have counted : s.heap.hugeDeadBytes.toNat = s.heap.huge.deadBytes :=
    toNat_of_gap (by omega) accounted.dead
  have counts : s.heap.quarantineBytes.toNat + s.owed = s.heap.table.bytes .ofQueued := by
    have sums : ∑ t, (s.thread t).owed s.heap.table = BitVec.ofNat 64 s.owed :=
      (Nat.cast_sum (R := BitVec 64) Finset.univ
        fun t => (s.thread t).point.owed s.heap.table).symm
    have queued := accounted.queued
    unfold Reckoned Heap.queuedGap at queued
    rw [sums] at queued
    have rest : s.heap.quarantineBytes =
        BitVec.ofNat 64 (s.heap.table.bytes .ofQueued - s.owed) := by
      have split := BitVec.ofNat_add (n := 64) (s.heap.table.bytes .ofQueued - s.owed) s.owed
      rw [Nat.sub_add_cancel owed] at split
      linear_combination split - queued
    rw [rest, BitVec.toNat_ofNat, Nat.mod_eq_of_lt (by omega)]
    omega
  refine ⟨counts, counted, ?_, ?_, ?_⟩ <;> omega

omit [DecidableEq T] in
theorem Counted.held (counted : Counted s) :
    (s.heap.quarantineBytes + s.heap.hugeDeadBytes).toNat =
      s.heap.quarantineBytes.toNat + s.heap.hugeDeadBytes.toNat := by
  obtain ⟨first, second⟩ := counted.small
  rw [BitVec.toNat_add, Nat.mod_eq_of_lt (by omega)]

/-- What is held beyond what the last sweep left is the gain and no less. -/
theorem gainedOf_add (held kept : BitVec 64) :
    (Heap.gainedOf held kept).toNat + kept.toNat = max held.toNat kept.toNat := by
  unfold Heap.gainedOf
  split_ifs with more
  · rw [BitVec.toNat_sub_of_le (BitVec.le_of_lt more)]
    have less := BitVec.lt_def.mp more
    omega
  · have least := mt BitVec.lt_def.mpr more
    change 0 + _ = _
    omega

/-- Where every sweep finds nobody owing, no count ever wraps: the count of the
quarantined bytes is what is queued less what is owed, and the gain that the
counts of one state give is exactly what was released since the last sweep, less
what is owed. -/
theorem counts_never_wrap (pages : 16 ∣ A.page) {byte : Nat → UInt8}
    (run : Run (State.step A) State.Quiet (.initial A byte) s) :
    s.heap.quarantineBytes.toNat + s.owed = s.heap.table.bytes .ofQueued ∧
      (s.heap.quarantineBytes + s.heap.hugeDeadBytes).toNat + s.owed =
        s.heap.table.bytes .ofQueued + s.heap.huge.deadBytes ∧
      (Heap.gainedOf (s.heap.quarantineBytes + s.heap.hugeDeadBytes) s.heap.retainedBytes).toNat +
          s.heap.retainedBytes.toNat + s.owed =
        s.heap.table.bytes .ofQueued + s.heap.huge.deadBytes := by
  have counted := counted_run pages run
  have held := counted.held
  have gain := gainedOf_add (s.heap.quarantineBytes + s.heap.hugeDeadBytes) s.heap.retainedBytes
  obtain ⟨queued, dead, retained, -⟩ := counted
  refine ⟨queued, ?_, ?_⟩ <;> omega

end Run

theorem counts_never_wrap_queued : ∃ s : State Unit,
    Run (State.step .sample) State.Quiet (.initial .sample fun _ => 0) s ∧ s.owed = 40960 ∧
      s.heap.quarantineBytes.toNat + s.owed = s.heap.table.bytes .ofQueued := by
  obtain ⟨s, run, owed⟩ : ∃ s : State Unit,
      Run (State.step .sample) State.Quiet (.initial .sample fun _ => 0) s ∧ s.owed = 40960 :=
    Run.exists_exec queuedUncounted (by decide +kernel)
  exact ⟨s, run, owed, (counts_never_wrap (by decide) run).1⟩

/-! ## Requests for a sweep -/

/-- A release is weighing what is held. -/
def Point.weighs : Point → Bool
  | .overBudget _ => true
  | _ => false

/-- A step while thread `t` weighs what is held: no sweep's section, and no step
of the thread but of `overBudget`. -/
def State.Weighs [DecidableEq T] (t : T) (s : State T) (e : Event T) : Prop :=
  s.Quiet e ∧ (s.thread e.thread).point.sweeps = false ∧
    (e.thread = t → (s.thread t).point.weighs = true)

instance [Fintype T] [DecidableEq T] (t : T) (s : State T) (e : Event T) :
    Decidable (s.Weighs t e) :=
  inferInstanceAs (Decidable (_ ∧ _))

/-- What a release has loaded, after counts of `queued` and `dead` bytes and of
what the last sweep left. -/
def Reading.Covers (queued dead : Nat) (kept : BitVec 64) : Reading → Prop
  | .quarantine bytes => queued ≤ bytes.toNat ∧ bytes.toNat < 2 ^ 56
  | .held bytes => queued + dead ≤ bytes.toNat
  | .gained total last => queued + dead ≤ total.toNat ∧ last = kept
  | .budgets total _ => queued + dead ≤ total.toNat + kept.toNat
  | .start | .clock _ _ | .ended _ _ _ | .pace _ => True

/-- The next load of `overBudget` keeps to the counts. -/
theorem Reading.Covers.step {queued dead : Nat} {r r' : Reading} {now : BitVec 64}
    (covers : r.Covers queued dead h.retainedBytes) (more : queued ≤ h.quarantineBytes.toNat)
    (more' : dead ≤ h.hugeDeadBytes.toNat)
    (small : h.quarantineBytes.toNat < 2 ^ 56 ∧ h.hugeDeadBytes.toNat ≤ 2 ^ 56)
    (next : (Thread.overBudget A h now r).2 = .overBudget r') :
    r'.Covers queued dead h.retainedBytes := by
  cases r with
  | start =>
      obtain rfl := Point.overBudget.inj next
      exact ⟨more, small.1⟩
  | quarantine bytes =>
      obtain rfl := Point.overBudget.inj next
      obtain ⟨loaded, few⟩ := covers
      simp only [Reading.Covers]
      rw [BitVec.toNat_add, Nat.mod_eq_of_lt (by omega)]
      omega
  | held bytes =>
      obtain rfl := Point.overBudget.inj next
      exact ⟨covers, rfl⟩
  | gained total kept =>
      obtain rfl := Point.overBudget.inj next
      obtain ⟨loaded, rfl⟩ := covers
      have gain := gainedOf_add total h.retainedBytes
      simp only [Reading.Covers]
      omega
  | budgets gained live =>
      simp only [Thread.overBudget] at next
      split_ifs at next
      obtain rfl := Point.overBudget.inj next
      exact True.intro
  | clock gained live =>
      obtain rfl := Point.overBudget.inj next
      exact True.intro
  | ended gained live until' =>
      simp only [Thread.overBudget] at next
      split_ifs at next
      obtain rfl := Point.overBudget.inj next
      exact True.intro
  | pace check => cases next

/-- The soft budget is within the hard one, unless doubling it wraps. -/
theorem softOf_le_hardOf (budget : A.quarantineBudget.toNat < 2 ^ 63) (live : BitVec 64) :
    Heap.softOf A live ≤ Heap.hardOf A live := by
  have four : (live / 4).toNat = live.toNat / 4 := BitVec.toNat_udiv
  have two : (live / 2).toNat = live.toNat / 2 := BitVec.toNat_udiv
  have double : (2 * A.quarantineBudget).toNat = 2 * A.quarantineBudget.toNat := by
    rw [BitVec.toNat_mul]
    exact Nat.mod_eq_of_lt (Nat.mul_lt_mul_of_pos_left budget (by decide))
  unfold Heap.softOf Heap.hardOf
  simp only [BitVec.lt_def, BitVec.le_def, four, two, double]
  split_ifs <;> omega

section Run

variable [Fintype T] [DecidableEq T]

/-- While a thread weighs what is held, no count falls, and what it has loaded
covers the counts it began with. -/
structure Since (start : State T) (t : T) (s : State T) : Prop where
  queued : start.heap.quarantineBytes.toNat ≤ s.heap.quarantineBytes.toNat
  dead : start.heap.hugeDeadBytes.toNat ≤ s.heap.hugeDeadBytes.toNat
  retained : s.heap.retainedBytes = start.heap.retainedBytes
  reading : ∀ r, (s.thread t).point = .overBudget r →
    r.Covers start.heap.quarantineBytes.toNat start.heap.hugeDeadBytes.toNat
      start.heap.retainedBytes

theorem Since.step {start : State T} {t : T} (since : Since start t s) (ok : Partition A s place)
    (counted : Counted s) (counted' : Counted s') (weighs : s.Weighs t e)
    (taken : s.step A e = some s') : Since start t s' := by
  obtain ⟨h, th, found, rfl⟩ := State.step_eq_some taken
  have total := ok.owed_step found
  have gains := (ok.settles found).gains.resolve_left fun ⟨k, world⟩ => by
    have calm := weighs.2.1
    rw [world] at calm
    cases calm
  obtain ⟨same, dead, queued⟩ := gains
  have before := counted.queued
  have after := counted'.queued
  have before' := counted.dead
  have after' := counted'.dead
  dsimp only at after after'
  refine ⟨since.queued.trans ?_, since.dead.trans ?_, same.trans since.retained, fun r here => ?_⟩
  · dsimp only
    omega
  · dsimp only
    omega
  · by_cases own : e.thread = t
    · subst own
      dsimp only at here ⊢
      rw [Function.update_self] at here
      have weighing := weighs.2.2 rfl
      cases point : (s.thread e.thread).point with
      | overBudget r₀ =>
          have inside := stepOf_inside found (by rw [point]; exact Point.noConfusion)
          unfold Thread.step at inside
          simp only [point] at inside
          obtain ⟨rfl, rfl⟩ := Prod.mk.inj (Option.some.inj inside)
          rw [← since.retained]
          refine Reading.Covers.step (since.retained ▸ since.reading r₀ point) since.queued since.dead
            counted.small here
      | _ =>
          rw [point] at weighing
          cases weighing
    · dsimp only at here
      rw [Function.update_of_ne (Ne.symm own)] at here
      exact since.reading r here

end Run

/-- A slot of 40960 bytes is queued and not counted when a sweep takes it out of
the quarantine. -/
def sweptUncounted : List (Event Bool) :=
  slotReleased true 40000 0x1480000000 5 ++ slotReleased false 0xC000000 0x2D80000000 17

/-- Then the slot is counted, the sweep ends, and an object of 192 MiB is released
and weighed. -/
def countedLate : List (Event Bool) :=
  [.next true, .next false, .next false] ++ slotReleased false 0xC000000 0x2D80000000 12

/-- A sweep that takes long, and then releases of 112, 14 and 2 MiB. -/
def releasedSoon : List (Event Unit) :=
  slotReleased () 0xC000000 0x2D80000000 17 ++
    [⟨(), none, { Answer.sample with took := 2 ^ 40 }⟩, .next ()] ++
    slotReleased () 0x6800000 0x2B80000000 16 ++ slotReleased () 0xD00000 0x2580000000 16 ++
    slotReleased () 0x1E0000 0x2000000000 12

/-- The release that reaches the hard budget requests no sweep: an earlier one has
set `nextPacingCheck` past it. -/
theorem sweep_delayed : ∃ s s' : State Unit,
    Run (State.step .sample) State.Quiet (.initial .sample fun _ => 0) s ∧
      (s.thread ()).point = .overBudget (.budgets 0x8000000 0) ∧
        Heap.hardOf .sample 0 = 0x8000000 ∧ s.step .sample (.next ()) = some s' ∧
          (s'.thread ()).point = .idle := by
  obtain ⟨s, run, seen⟩ : ∃ s : State Unit,
      Run (State.step .sample) State.Quiet (.initial .sample fun _ => 0) s ∧
        ((s.thread ()).point, (s.step .sample (.next ())).map fun s' => (s'.thread ()).point) =
          (.overBudget (.budgets 0x8000000 0), some .idle) :=
    Run.exists_exec releasedSoon (by decide +kernel)
  obtain ⟨point, next⟩ := Prod.mk.inj seen
  obtain ⟨s', taken, idle⟩ := Option.map_eq_some_iff.mp next
  exact ⟨s, s', run, point, by decide, taken, idle⟩

end WeaveC.Alloc
