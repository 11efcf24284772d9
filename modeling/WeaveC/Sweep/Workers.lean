import WeaveC.Sweep.Work
import WeaveC.Library.Transition

/-!
# Mark workers

The sweeping thread lists its work, starts a round and takes items beside the
workers; it returns when every worker has counted itself finished.  A step is a
section under `workLock` or one access to what the threads share.

A round is complete if no worker was still in an earlier one when it started.
A worker created after the first round joins the round before it as soon as it
runs, and its count may fall into the next one.
-/

namespace WeaveC.Sweep

open WeaveC.Library

/-- Where a worker is in `markWorker`.  While it marks it holds the item's
number, and the number of the list the item is of. -/
inductive WorkerPoint where
  | announcing
  | starting
  | waiting
  | taking
  | taken (i : Nat)
  | marking (list i : Nat)
  | finishing
  deriving DecidableEq, Repr

structure Worker where
  point : WorkerPoint
  seen : BitVec 32
  deriving DecidableEq, Repr

/-- Where the sweeping thread is, from `startWorkers` to the end of `runWork`. -/
inductive SweeperPoint where
  | idle
  | starting
  | awaiting
  | stopped
  | collecting
  | taking
  | taken (i : Nat)
  | marking (i : Nat)
  | waiting
  | returned
  deriving DecidableEq, Repr

/-- What the sweeping thread and the workers share.  `list` numbers the work
lists, and `marked` has the items of the current one that are marked. -/
structure Pool where
  sweeper : SweeperPoint
  workers : List Worker
  workerCount : Nat
  workersFailed : Bool
  workRound : BitVec 32
  workersFinished : Nat
  workNext : Nat
  workCount : Nat
  list : Nat
  marked : List Nat
  deriving Repr

/-- A worker's step, the creation of a worker, an item listed, a parallel sweep
passed by, or the sweeping thread's next step. -/
inductive PoolEvent where
  | worker (k : Nat)
  | create (ok : Bool)
  | add
  | sequential
  | sweep
  deriving DecidableEq, Repr

namespace Worker

/-- Between a round it saw and its count of it. -/
def Inside (w : Worker) : Prop :=
  match w.point with
  | .taking | .taken _ | .marking _ _ | .finishing => True
  | .announcing | .starting | .waiting => False

instance (w : Worker) : Decidable w.Inside := by
  unfold Inside
  cases w.point <;> infer_instance

/-- Waiting for the round after `round`. -/
def after (round : BitVec 32) (w : Worker) : Bool := w.point = .waiting && w.seen = round

/-- The head of the loop, under the lock: waits while the round is the one last
seen. -/
def look (w : Worker) (round : BitVec 32) : Worker :=
  if round = w.seen then { w with point := .waiting } else ⟨.taking, round⟩

end Worker

namespace Pool

def initial : Pool :=
  { sweeper := .idle, workers := [], workerCount := 0, workersFailed := false, workRound := 0
    workersFinished := 0, workNext := 0, workCount := 0, list := 0, marked := [] }

/-- `markWorker`, one step of worker `k`. -/
def workerStep (s : Pool) (k : Nat) (w : Worker) : Pool :=
  let goto (s : Pool) (w : Worker) : Pool := { s with workers := s.workers.set k w }
  match w.point with
  | .announcing => goto s { w with point := .starting }
  | .starting | .waiting => goto s (w.look s.workRound)
  | .taking => goto { s with workNext := s.workNext + 1 } { w with point := .taken s.workNext }
  | .taken i =>
      goto s { w with point := if s.workCount ≤ i then .finishing else .marking s.list i }
  | .marking list i =>
      goto { s with marked := if list = s.list then i :: s.marked else s.marked }
        { w with point := .taking }
  | .finishing =>
      goto { s with workersFinished := s.workersFinished + 1 } (w.look s.workRound)

/-- The sweeping thread's next step: `startWorkers`, the sweep and `runWork`. -/
def sweepStep (s : Pool) : Option Pool :=
  match s.sweeper with
  | .idle => some { s with sweeper := .starting }
  | .starting => some { s with sweeper := .stopped }
  | .awaiting =>
      if (s.workers[s.workerCount]?).any fun w => w.point ≠ .announcing then
        some { s with sweeper := .starting, workerCount := s.workerCount + 1 }
      else none
  | .stopped =>
      if s.workerCount ≠ 0 then
        some { s with sweeper := .collecting, workCount := 0, list := s.list + 1, marked := [] }
      else none
  | .collecting =>
      some
        { s with
          sweeper := .taking
          workNext := 0
          workersFinished := 0
          workRound := s.workRound + 1 }
  | .taking => some { s with sweeper := .taken s.workNext, workNext := s.workNext + 1 }
  | .taken i => some { s with sweeper := if s.workCount ≤ i then .waiting else .marking i }
  | .marking i => some { s with sweeper := .taking, marked := i :: s.marked }
  | .waiting =>
      if s.workersFinished < s.workerCount then none else some { s with sweeper := .returned }
  | .returned => some { s with sweeper := .idle }

/-- `startWorkers` creates one worker; a failure ends it for good. -/
def createStep (wanted : Nat) (s : Pool) (ok : Bool) : Option Pool :=
  if s.sweeper = .starting ∧ s.workersFailed = false ∧ s.workerCount < wanted then
    if ok then some { s with sweeper := .awaiting, workers := s.workers ++ [⟨.announcing, 0⟩] }
    else some { s with sweeper := .stopped, workersFailed := true }
  else none

/-- A step, with the number of workers a sweep wants. -/
def step (wanted : Nat) (s : Pool) : PoolEvent → Option Pool
  | .worker k => (s.workers[k]?).map (s.workerStep k)
  | .create ok => createStep wanted s ok
  | .add =>
      if s.sweeper = .collecting ∧ s.workCount < WorkSlots then
        some { s with workCount := s.workCount + 1 }
      else none
  | .sequential => if s.sweeper = .stopped then some { s with sweeper := .idle } else none
  | .sweep => s.sweepStep

/-- No worker is in an earlier round when a round starts. -/
def Quiet (s : Pool) (e : PoolEvent) : Prop :=
  e = .sweep → s.sweeper = .collecting → ∀ w ∈ s.workers, ¬ w.Inside

instance (s : Pool) (e : PoolEvent) : Decidable (s.Quiet e) :=
  inferInstanceAs (Decidable (_ → _ → _))

/-! ## The invariant -/

/-- From the start of a round to the return of `runWork`. -/
def InRound (s : Pool) : Prop :=
  match s.sweeper with
  | .taking | .taken _ | .marking _ | .waiting => True
  | _ => False

/-- A thread has taken item `i` and not marked it yet. -/
def Taken (s : Pool) (i : Nat) : Prop :=
  s.sweeper = .taken i ∨ s.sweeper = .marking i ∨
    ∃ w ∈ s.workers, w.point = .taken i ∨ w.point = .marking s.list i

/-- Every item is marked, and no worker is in the middle of marking one. -/
def Complete (s : Pool) : Prop :=
  (∀ i, i < s.workCount → i ∈ s.marked) ∧ ∀ w ∈ s.workers, ∀ list i, w.point ≠ .marking list i

/-- What holds between two steps. -/
structure Invariant (s : Pool) : Prop where
  created : s.workers.length = s.workerCount + if s.sweeper = .awaiting then 1 else 0
  inside : ∀ w ∈ s.workers, w.Inside → w.seen = s.workRound
  waiting : ¬ s.InRound → ∀ w ∈ s.workers, w.point = .waiting → w.seen = s.workRound
  finished : s.InRound → s.workersFinished ≤ s.workers.countP (Worker.after s.workRound)
  items : s.InRound → ∀ i, i < s.workCount → i ∈ s.marked ∨ s.workNext ≤ i ∨ s.Taken i
  below : ∀ i, s.sweeper = .taken i → i < s.workNext
  past : s.sweeper = .waiting → s.workCount ≤ s.workNext
  passed : s.sweeper = .returned →
    (∀ i, i < s.workCount → i ∈ s.marked) ∧ ∀ w ∈ s.workers, w.after s.workRound = true

/-! ## One worker's step -/

section Workers

variable {s s' : Pool} {k : Nat} {w w' : Worker}

theorem mem_set (here : s.workers[k]? = some w) {v : Worker} (mem : v ∈ s.workers) (w' : Worker) :
    v = w ∨ v ∈ s.workers.set k w' := by
  obtain ⟨j, found⟩ := List.mem_iff_getElem?.mp mem
  by_cases same : k = j
  · subst same
    exact .inl (Option.some.inj (found.symm.trans here))
  · right
    refine List.mem_iff_getElem?.mpr ⟨j, ?_⟩
    rw [List.getElem?_set_ne same]
    exact found

theorem countP_set_le {p : Worker → Bool} (here : s.workers[k]? = some w)
    (kept : p w = true → p w' = true) :
    s.workers.countP p ≤ (s.workers.set k w').countP p := by
  obtain ⟨short, rfl⟩ := List.getElem?_eq_some_iff.mp here
  rw [List.countP_set short]
  split_ifs with before after
  · omega
  · exact absurd (kept before) after
  · omega
  · omega

theorem countP_set_succ {p : Worker → Bool} (here : s.workers[k]? = some w) (before : p w = false)
    (after : p w' = true) : s.workers.countP p + 1 ≤ (s.workers.set k w').countP p := by
  obtain ⟨short, rfl⟩ := List.getElem?_eq_some_iff.mp here
  rw [List.countP_set short, if_pos after, if_neg (by simp [before])]
  omega

theorem look_inside (round : BitVec 32) (inside : (w.look round).Inside) :
    (w.look round).seen = round := by
  unfold Worker.look at *
  split_ifs at *
  · exact inside.elim
  · rfl

theorem look_waiting (round : BitVec 32) (waiting : (w.look round).point = .waiting) :
    (w.look round).seen = round := by
  unfold Worker.look at *
  split_ifs at * with same
  · exact same.symm

/-- What a worker's step leaves of the workers' part of the invariant, with the
worker as it goes on. -/
structure Steps (s s' : Pool) (k : Nat) (w w' : Worker) : Prop where
  workers : s'.workers = s.workers.set k w'
  others : s'.sweeper = s.sweeper ∧ s'.workerCount = s.workerCount ∧
    s'.workRound = s.workRound ∧ s'.workCount = s.workCount ∧ s'.list = s.list
  inside : w'.Inside → w'.seen = s.workRound
  waiting : w'.point = .waiting → w'.seen = s.workRound
  after : w.after s.workRound = true → w' = w
  counted : s'.workersFinished = s.workersFinished ∨
    s'.workersFinished = s.workersFinished + 1 ∧ w.after s.workRound = false ∧
      w'.after s.workRound = true
  marked : ∀ i ∈ s.marked, i ∈ s'.marked
  taken : ∀ i, i < s.workCount → w.point = .taken i ∨ w.point = .marking s.list i →
    i ∈ s'.marked ∨ w'.point = .marking s.list i
  next : s.workNext ≤ s'.workNext ∧ ∀ i, s.workNext ≤ i → i < s'.workNext → w'.point = .taken i

theorem workerStep_steps (inside : w.Inside → w.seen = s.workRound) :
    ∃ w', Steps s (s.workerStep k w) k w w' := by
  obtain ⟨point, seen⟩ := w
  cases point with
  | announcing =>
      refine ⟨⟨.starting, seen⟩, rfl, ⟨rfl, rfl, rfl, rfl, rfl⟩, ?_, ?_, ?_, .inl rfl,
        fun _ => id, ?_, Nat.le_refl _, ?_⟩
      all_goals simp [Worker.Inside, Worker.after, workerStep]
  | starting =>
      refine ⟨_, rfl, ⟨rfl, rfl, rfl, rfl, rfl⟩, look_inside _, look_waiting _, ?_, .inl rfl,
        fun _ => id, ?_, Nat.le_refl _, ?_⟩
      all_goals simp [Worker.after, workerStep]
      omega
  | waiting =>
      refine ⟨_, rfl, ⟨rfl, rfl, rfl, rfl, rfl⟩, look_inside _, look_waiting _, ?_, .inl rfl,
        fun _ => id, ?_, Nat.le_refl _, ?_⟩
      · intro after
        have seen : seen = s.workRound := by simpa [Worker.after] using after
        simp [Worker.look, seen]
      · simp
      · simp [workerStep]
        omega
  | taking =>
      refine ⟨⟨.taken s.workNext, seen⟩, rfl, ⟨rfl, rfl, rfl, rfl, rfl⟩, ?_, ?_, ?_, .inl rfl,
        fun _ => id, ?_, Nat.le_succ _, ?_⟩
      · exact fun _ => inside trivial
      all_goals simp [Worker.after, workerStep]
      omega
  | taken i =>
      refine ⟨_, rfl, ⟨rfl, rfl, rfl, rfl, rfl⟩, ?_, ?_, ?_, .inl rfl, fun _ => id, ?_,
        Nat.le_refl _, ?_⟩
      · exact fun _ => inside trivial
      · simp only
        split_ifs <;> simp
      · simp [Worker.after]
      · rintro j below (held | held)
        · right
          obtain rfl := WorkerPoint.taken.inj held
          exact if_neg (by omega)
        · exact absurd held (by simp)
      · simp [workerStep]
        omega
  | marking list i =>
      refine ⟨⟨.taking, seen⟩, rfl, ⟨rfl, rfl, rfl, rfl, rfl⟩, ?_, ?_, ?_, .inl rfl, ?_, ?_,
        Nat.le_refl _, ?_⟩
      · exact fun _ => inside trivial
      · simp
      · simp [Worker.after]
      · intro j mem
        simp only [workerStep]
        split_ifs
        · exact List.mem_cons_of_mem _ mem
        · exact mem
      · rintro j below (held | held)
        · exact absurd held (by simp)
        · left
          obtain ⟨rfl, rfl⟩ := WorkerPoint.marking.inj held
          simp [workerStep]
      · simp [workerStep]
  | finishing =>
      refine ⟨_, rfl, ⟨rfl, rfl, rfl, rfl, rfl⟩, look_inside _, look_waiting _, ?_,
        .inr ⟨rfl, ?_, ?_⟩, fun _ => id, ?_, Nat.le_refl _, ?_⟩
      · simp [Worker.after]
      · simp [Worker.after]
      · have seen : seen = s.workRound := inside trivial
        simp [Worker.look, Worker.after, seen]
      · simp
      · simp [workerStep]
        omega

/-- A worker's step keeps the invariant. -/
theorem Invariant.worker (ok : s.Invariant) (here : s.workers[k]? = some w) :
    (s.workerStep k w).Invariant := by
  have mem : w ∈ s.workers := List.mem_iff_getElem?.mpr ⟨k, here⟩
  obtain ⟨w', steps⟩ := workerStep_steps (k := k) (ok.inside w mem)
  generalize s.workerStep k w = s' at steps
  obtain ⟨sweeper, count, round, size, list⟩ := steps.others
  have placed : w' ∈ s'.workers := by
    rw [steps.workers]
    exact List.mem_set (List.getElem?_eq_some_iff.mp here).1 w'
  have inRound : s'.InRound ↔ s.InRound := by
    unfold InRound
    rw [sweeper]
  refine
    { created := ?_, inside := ?_, waiting := ?_, finished := ?_, items := ?_, below := ?_
      past := ?_, passed := ?_ }
  · rw [steps.workers, List.length_set, sweeper, count]
    exact ok.created
  · intro v mem'
    rw [round]
    rw [steps.workers] at mem'
    rcases List.mem_or_eq_of_mem_set mem' with old | rfl
    · exact ok.inside v old
    · exact steps.inside
  · intro outside v mem'
    rw [round]
    rw [steps.workers] at mem'
    rcases List.mem_or_eq_of_mem_set mem' with old | rfl
    · exact ok.waiting (fun within => outside (inRound.mpr within)) v old
    · exact steps.waiting
  · intro within
    have before := ok.finished (inRound.mp within)
    rw [steps.workers, round]
    rcases steps.counted with same | ⟨more, off, on⟩
    · rw [same]
      refine before.trans (countP_set_le here fun after => ?_)
      rw [steps.after after]
      exact after
    · rw [more]
      have := countP_set_succ here off on
      omega
  · intro within i below
    rw [size] at below
    have kept {v : Worker} (mem' : v ∈ s.workers)
        (held : v.point = .taken i ∨ v.point = .marking s.list i) :
        i ∈ s'.marked ∨ s'.workNext ≤ i ∨ s'.Taken i := by
      rcases mem_set here mem' w' with rfl | other
      · rcases steps.taken i below held with done | going
        · exact .inl done
        · refine .inr (.inr (.inr (.inr ⟨w', placed, .inr ?_⟩)))
          rw [list]
          exact going
      · refine .inr (.inr (.inr (.inr ⟨v, ?_, ?_⟩)))
        · rw [steps.workers]
          exact other
        · rw [list]
          exact held
    rcases ok.items (inRound.mp within) i below with done | left | own | own | ⟨v, mem', held⟩
    · exact .inl (steps.marked i done)
    · by_cases now : i < s'.workNext
      · exact .inr (.inr (.inr (.inr ⟨w', placed, .inl (steps.next.2 i left now)⟩)))
      · exact .inr (.inl (Nat.not_lt.mp now))
    · exact .inr (.inr (.inl (sweeper.trans own)))
    · exact .inr (.inr (.inr (.inl (sweeper.trans own))))
    · exact kept mem' held
  · intro i held
    exact (ok.below i (sweeper.symm.trans held)).trans_le steps.next.1
  · intro done
    rw [size]
    exact (ok.past (sweeper.symm.trans done)).trans steps.next.1
  · intro done
    obtain ⟨items, all⟩ := ok.passed (sweeper.symm.trans done)
    rw [size, round]
    refine ⟨fun i below => steps.marked i (items i below), fun v mem' => ?_⟩
    rw [steps.workers] at mem'
    rcases List.mem_or_eq_of_mem_set mem' with old | rfl
    · exact all v old
    · rw [steps.after (all w mem)]
      exact all w mem

end Workers

/-! ## The sweeping thread's steps -/

section Sweeper

variable {s s' : Pool}

/-- Outside a round nothing is said of items and counts. -/
theorem Invariant.outside (workers : ∀ w ∈ s.workers, w.Inside → w.seen = s.workRound)
    (waiting : ∀ w ∈ s.workers, w.point = .waiting → w.seen = s.workRound)
    (created : s.workers.length = s.workerCount + if s.sweeper = .awaiting then 1 else 0)
    (out : ¬ s.InRound) (still : s.sweeper ≠ .returned) : s.Invariant where
  created := created
  inside := workers
  waiting _ := waiting
  finished within := absurd within out
  items within := absurd within out
  below i held := absurd (show s.InRound by simp [InRound, held]) out
  past done := absurd (show s.InRound by simp [InRound, done]) out
  passed done := absurd done still

/-- The round starts with every worker waiting or not yet running. -/
theorem Invariant.start (ok : s.Invariant) (collecting : s.sweeper = .collecting)
    (quiet : ∀ w ∈ s.workers, ¬ w.Inside) :
    Invariant
      { s with sweeper := .taking, workNext := 0, workersFinished := 0
               workRound := s.workRound + 1 } where
  created := by
    have created := ok.created
    rw [collecting] at created
    exact created
  inside w mem within := absurd within (quiet w mem)
  waiting out := absurd trivial out
  finished _ := Nat.zero_le _
  items _ i _ := .inr (.inl (Nat.zero_le i))
  below i held := absurd held (by simp)
  past done := absurd done (by simp)
  passed done := absurd done (by simp)

/-- When every worker has counted itself, every item is marked. -/
theorem Invariant.finish (ok : s.Invariant) (waits : s.sweeper = .waiting)
    (all : s.workerCount ≤ s.workersFinished) :
    (∀ i, i < s.workCount → i ∈ s.marked) ∧ ∀ w ∈ s.workers, w.after s.workRound = true := by
  have within : s.InRound := by
    rw [InRound, waits]
    trivial
  have created := ok.created
  rw [waits, if_neg (by simp)] at created
  have every : ∀ w ∈ s.workers, w.after s.workRound = true := by
    refine List.countP_eq_length.mp (Nat.le_antisymm List.countP_le_length ?_)
    have finished := ok.finished within
    omega
  refine ⟨fun i below => ?_, every⟩
  rcases ok.items within i below with done | left | own | own | ⟨w, mem, held⟩
  · exact done
  · have past := ok.past waits
    omega
  · exact absurd (waits.symm.trans own) (by simp)
  · exact absurd (waits.symm.trans own) (by simp)
  · have after := every w mem
    have point : w.point = .waiting := by
      simp only [Worker.after, Bool.and_eq_true, decide_eq_true_eq] at after
      exact after.1
    rcases held with held | held
    · exact absurd (point.symm.trans held) (by simp)
    · exact absurd (point.symm.trans held) (by simp)

/-- The sweeping thread takes an item. -/
theorem Invariant.takes (ok : s.Invariant) (point : s.sweeper = .taking) :
    Invariant { s with sweeper := .taken s.workNext, workNext := s.workNext + 1 } := by
  have within : s.InRound := by simp [InRound, point]
  have created := ok.created
  rw [point] at created
  refine
    { created := created, inside := ok.inside
      waiting := fun out => absurd trivial out
      finished := fun _ => ok.finished within
      items := fun _ i below => ?_
      below := fun i held => by
        obtain rfl := SweeperPoint.taken.inj held
        exact Nat.lt_succ_self _
      past := fun done => absurd done (by simp)
      passed := fun done => absurd done (by simp) }
  rcases ok.items within i below with done | left | own | own | held
  · exact .inl done
  · rcases Nat.eq_or_lt_of_le left with rfl | left
    · exact .inr (.inr (.inl rfl))
    · exact .inr (.inl left)
  · exact absurd (point.symm.trans own) (by simp)
  · exact absurd (point.symm.trans own) (by simp)
  · exact .inr (.inr (.inr (.inr held)))

/-- It looks whether there is such an item. -/
theorem Invariant.took {i : Nat} (ok : s.Invariant) (point : s.sweeper = .taken i) :
    Invariant { s with sweeper := if s.workCount ≤ i then .waiting else .marking i } := by
  have within : s.InRound := by simp [InRound, point]
  have created := ok.created
  rw [point] at created
  refine
    { created := ?_, inside := ok.inside
      waiting := fun out => ?_
      finished := fun _ => ok.finished within
      items := fun _ j below => ?_
      below := fun j held => ?_
      past := fun done => ?_
      passed := fun done => ?_ }
  · rw [created]
    simp only
    split_ifs with no more <;> simp_all
  · refine absurd ?_ out
    simp only [InRound]
    split_ifs <;> trivial
  · rcases ok.items within j below with done | left | own | own | held
    · exact .inl done
    · exact .inr (.inl left)
    · obtain rfl := SweeperPoint.taken.inj (point.symm.trans own)
      exact .inr (.inr (.inr (.inl (if_neg (Nat.not_le.mpr below)))))
    · exact absurd (point.symm.trans own) (by simp)
    · exact .inr (.inr (.inr (.inr held)))
  · simp only at held
    split_ifs at held
  · simp only at done
    split_ifs at done with past
    exact past.trans (ok.below i point).le
  · simp only at done
    split_ifs at done

theorem Invariant.marks {i : Nat} (ok : s.Invariant) (point : s.sweeper = .marking i) :
    Invariant { s with sweeper := .taking, marked := i :: s.marked } := by
  have within : s.InRound := by simp [InRound, point]
  have created := ok.created
  rw [point] at created
  refine
    { created := created, inside := ok.inside
      waiting := fun out => absurd trivial out
      finished := fun _ => ok.finished within
      items := fun _ j below => ?_
      below := fun j held => absurd held (by simp)
      past := fun done => absurd done (by simp)
      passed := fun done => absurd done (by simp) }
  rcases ok.items within j below with done | left | own | own | held
  · exact .inl (List.mem_cons_of_mem _ done)
  · exact .inr (.inl left)
  · exact absurd (point.symm.trans own) (by simp)
  · obtain rfl := SweeperPoint.marking.inj (point.symm.trans own)
    exact .inl List.mem_cons_self
  · exact .inr (.inr (.inr (.inr held)))

theorem Invariant.returns (ok : s.Invariant) (point : s.sweeper = .waiting)
    (all : s.workerCount ≤ s.workersFinished) : Invariant { s with sweeper := .returned } := by
  obtain ⟨items, every⟩ := ok.finish point all
  have created := ok.created
  rw [point] at created
  refine
    { created := created, inside := ok.inside
      waiting := fun _ w mem _ => ?_
      finished := fun within => within.elim
      items := fun within => within.elim
      below := fun i held => absurd held (by simp)
      past := fun done => absurd done (by simp)
      passed := fun _ => ⟨items, every⟩ }
  have after := every w mem
  simp only [Worker.after, Bool.and_eq_true, decide_eq_true_eq] at after
  exact after.2

theorem Invariant.sweep (ok : s.Invariant)
    (quiet : s.sweeper = .collecting → ∀ w ∈ s.workers, ¬ w.Inside)
    (taken : s.sweepStep = some s') : s'.Invariant := by
  have created := ok.created
  have free (out : ¬ s.InRound) := ok.waiting out
  unfold sweepStep at taken
  cases point : s.sweeper with
  | idle | starting | returned =>
      simp only [point] at taken
      obtain rfl := Option.some.inj taken
      rw [point] at created
      exact .outside ok.inside (free (by simp [InRound, point])) created id (by simp)
  | awaiting | stopped =>
      simp only [point] at taken
      split_ifs at taken
      obtain rfl := Option.some.inj taken
      rw [point] at created
      exact .outside ok.inside (free (by simp [InRound, point])) created id (by simp)
  | collecting =>
      simp only [point] at taken
      obtain rfl := Option.some.inj taken
      exact ok.start point (quiet point)
  | taking =>
      simp only [point] at taken
      obtain rfl := Option.some.inj taken
      exact ok.takes point
  | taken i =>
      simp only [point] at taken
      obtain rfl := Option.some.inj taken
      exact ok.took point
  | marking i =>
      simp only [point] at taken
      obtain rfl := Option.some.inj taken
      exact ok.marks point
  | waiting =>
      simp only [point] at taken
      split_ifs at taken with more
      obtain rfl := Option.some.inj taken
      exact ok.returns point (Nat.not_lt.mp more)

/-! ## Every run -/

theorem Invariant.create {wanted : Nat} {made : Bool} (ok : s.Invariant)
    (taken : createStep wanted s made = some s') : s'.Invariant := by
  unfold createStep at taken
  split_ifs at taken with allowed created
  · obtain rfl := Option.some.inj taken
    have before := ok.created
    have out : ¬ s.InRound := by simp [InRound, allowed.1]
    rw [allowed.1] at before
    refine .outside (fun w mem => ?_) (fun w mem => ?_) ?_ id (by simp)
    · rcases List.mem_append.mp mem with old | new
      · exact ok.inside w old
      · obtain rfl := List.mem_singleton.mp new
        exact fun within => within.elim
    · rcases List.mem_append.mp mem with old | new
      · exact ok.waiting out w old
      · obtain rfl := List.mem_singleton.mp new
        exact fun waits => absurd waits (by simp)
    · simpa using before
  · obtain rfl := Option.some.inj taken
    have out : ¬ s.InRound := by simp [InRound, allowed.1]
    have before := ok.created
    rw [allowed.1] at before
    exact .outside ok.inside (ok.waiting out) before id (by simp)

theorem Invariant.step {wanted : Nat} {e : PoolEvent} (ok : s.Invariant) (quiet : s.Quiet e)
    (taken : s.step wanted e = some s') : s'.Invariant := by
  cases e with
  | worker k =>
      obtain ⟨w, here, rfl⟩ := Option.map_eq_some_iff.mp taken
      exact ok.worker here
  | create made => exact ok.create taken
  | add =>
      simp only [Pool.step] at taken
      split_ifs at taken with allowed
      obtain rfl := Option.some.inj taken
      have out : ¬ s.InRound := by simp [InRound, allowed.1]
      exact .outside ok.inside (ok.waiting out) ok.created out (by simp [allowed.1])
  | sequential =>
      simp only [Pool.step] at taken
      split_ifs at taken with allowed
      obtain rfl := Option.some.inj taken
      have out : ¬ s.InRound := by simp [InRound, allowed]
      have before := ok.created
      rw [allowed] at before
      exact .outside ok.inside (ok.waiting out) before id (by simp)
  | sweep => exact ok.sweep (quiet rfl) taken

theorem invariant_initial : Pool.initial.Invariant :=
  .outside (fun w mem => absurd mem (by simp [Pool.initial]))
    (fun w mem => absurd mem (by simp [Pool.initial])) rfl id (by simp [Pool.initial])

theorem invariant_run {wanted : Nat} (run : Run (Pool.step wanted) Quiet .initial s) :
    s.Invariant :=
  run.invariant invariant_initial fun _ _ _ => Invariant.step

/-- If no worker is in an earlier round when one starts, `runWork` returns with
every item marked and no worker marking. -/
theorem runWork_complete {wanted : Nat} (run : Run (Pool.step wanted) Quiet .initial s)
    (returned : s.sweeper = .returned) : s.Complete := by
  obtain ⟨items, all⟩ := (invariant_run run).passed returned
  refine ⟨items, fun w mem list i marking => ?_⟩
  have after := all w mem
  simp [Worker.after, marking] at after

/-- A round of one worker, complete. -/
def oneRound : List PoolEvent :=
  [.sweep, .create true, .worker 0, .sweep, .sweep, .sweep, .add, .sweep, .worker 0, .worker 0,
    .worker 0, .worker 0, .worker 0, .worker 0, .worker 0, .sweep, .sweep, .sweep]

theorem runWork_complete_one : ∃ s, Run (Pool.step 1) Quiet .initial s ∧
    s.sweeper = .returned ∧ s.Complete := by
  obtain ⟨s, run, returned⟩ : ∃ s, Run (Pool.step 1) Quiet .initial s ∧ s.sweeper = .returned :=
    Run.exists_exec oneRound (by decide +kernel)
  exact ⟨s, run, returned, runWork_complete run returned⟩

/-- A round of one worker that marks `n` items. -/
def roundOf (n : Nat) : List PoolEvent :=
  [.sweep, .create true, .worker 0, .sweep, .sweep, .sweep] ++ List.replicate n .add ++
    .sweep :: List.replicate (3 * n + 4) (.worker 0) ++ [.sweep, .sweep, .sweep]

/-- A second worker, created in the next sweep, counts itself in the round
before and in the new one while the first is still marking. -/
def lateWorker : List PoolEvent :=
  oneRound ++
    [.sweep, .sweep, .create true, .worker 1, .sweep, .sweep, .sweep, .add, .add, .worker 1,
      .sweep, .worker 0, .worker 0, .worker 0, .sweep, .sweep, .sweep, .sweep, .sweep, .worker 1,
      .worker 1, .worker 1, .worker 1, .worker 1, .worker 1, .sweep]

/-- The count of the late worker makes `runWork` return too early. -/
theorem runWork_incomplete : ∃ s, Run (Pool.step 2) (fun _ _ => True) .initial s ∧
    s.sweeper = .returned ∧ ¬ s.Complete := by
  obtain ⟨s, run, seen⟩ : ∃ s, Run (Pool.step 2) (fun _ _ => True) .initial s ∧
      (s.sweeper, s.workers.map Worker.point) = (.returned, [.marking 2 0, .waiting]) :=
    Run.exists_exec lateWorker (by decide +kernel)
  obtain ⟨returned, points⟩ := Prod.mk.inj seen
  refine ⟨s, run, returned, fun complete => ?_⟩
  have first : WorkerPoint.marking 2 0 ∈ s.workers.map Worker.point := by simp [points]
  obtain ⟨w, mem, marking⟩ := List.mem_map.mp first
  exact complete.2 w mem 2 0 marking

end Sweeper

end Pool

end WeaveC.Sweep
