import WeaveC.Sweep.Stopping

/-!
# The stopped world

What a sweep may rely on when `stopThreads` has succeeded, and when it
recycles.
-/

namespace WeaveC.Sweep

open WeaveC.Library

/-- The event brings a task into being. -/
def StopEvent.births : StopEvent → Bool
  | .create _ _ | .worker _ => true
  | _ => false

namespace Process

variable {s s' : Process}

/-! ## Tasks that exist -/

theorem handlerStep_same {t : Nat} (taken : s.handlerStep t = some s') :
    s'.point = s.point ∧ s'.tasks = s.tasks ∧ s'.workers = s.workers ∧
      s'.sweeper = s.sweeper ∧ s'.recycled = s.recycled ∧ s'.listedLife = s.listedLife ∧
      ∀ u, (s'.task u).alive = (s.task u).alive ∧ (s'.task u).life = (s.task u).life := by
  unfold handlerStep at taken
  cases point : (s.task t).handler with
  | out => simp [point] at taken
  | _ =>
      simp only [point] at taken
      obtain rfl := Option.some.inj taken
      refine ⟨rfl, rfl, rfl, rfl, rfl, rfl, fun u => ?_⟩
      by_cases same : u = t
      · subst same
        simp
      · simp [setTask_ne _ _ same]

/-- The sweeping task begins and ends no task. -/
theorem sweepStep_alive {a : StopAnswer} (taken : s.sweepStep a = some s') (t : Nat) :
    (s'.task t).alive = (s.task t).alive := by
  unfold sweepStep at taken
  cases point : s.point with
  | idle => simp [point] at taken
  | build i =>
      simp only [point] at taken
      split at taken
      all_goals
        obtain rfl := Option.some.inj taken
        rfl
  | send i sent =>
      simp only [point] at taken
      split_ifs at taken
      · obtain rfl := Option.some.inj taken
        by_cases same : t = s.stopped i
        · subst same
          simp
        · simp [setTask_ne _ _ same]
      all_goals
        obtain rfl := Option.some.inj taken
        rfl
  | collect i =>
      simp only [point] at taken
      split_ifs at taken
      all_goals
        obtain rfl := Option.some.inj taken
        rfl
  | _ =>
      simp only [point] at taken
      obtain rfl := Option.some.inj taken
      rfl

/-- A task that exists after a step existed before it, unless the step creates
one. -/
theorem alive_of_step {e : StopEvent} (taken : s.step e = some s') (old : e.births = false)
    {t : Nat} (alive : (s'.task t).alive = true) : (s.task t).alive = true := by
  have changed {u : Nat} (x : Task) (kept : x.alive = true → (s.task u).alive = true)
      (now : ((s.setTask u x).task t).alive = true) : (s.task t).alive = true := by
    by_cases same : t = u
    · subst same
      exact kept (setTask_self s t x ▸ now)
    · rwa [setTask_ne _ _ same] at now
  cases e with
  | create parent child | worker child => cases old
  | exit u =>
      simp only [Process.step] at taken
      split_ifs at taken
      obtain rfl := Option.some.inj taken
      exact changed _ (fun dead => absurd dead (by simp)) alive
  | deliver u frame context =>
      simp only [Process.step] at taken
      split_ifs at taken
      obtain rfl := Option.some.inj taken
      exact changed { s.task u with pending := false, handler := .entered, frame, context } id alive
  | handler u => exact (handlerStep_same taken).2.2.2.2.2.2 t |>.1 ▸ alive
  | sweep u =>
      simp only [Process.step] at taken
      split_ifs at taken
      obtain rfl := Option.some.inj taken
      exact alive
  | next a =>
      simp only [Process.step] at taken
      split_ifs at taken
      exact sweepStep_alive taken t ▸ alive

/-! ## The stop -/

/-- A system in which a signal is free and nothing fails but the directory of
tasks, which cannot be opened. -/
def unlisted : StopAnswer := ⟨none, true, false, true, true⟩

def nexts (n : Nat) : List StopEvent := List.replicate n (.next unlisted)

def handlers (t n : Nat) : List StopEvent := List.replicate n (.handler t)

/-- Task 1 begins a sweep that lists it and task 2. -/
def listTwo : List StopEvent :=
  [.create 1 2, .sweep 1, .next { unlisted with names := some [1, 2] }]

/-- The stop of task 2, from the table on. -/
def stopTwo : List StopEvent :=
  nexts 11 ++ [.deliver 2 96 160] ++ handlers 2 8 ++ nexts 3

/-- The process when the table is about to be made. -/
def listedTwo : Process :=
  { Process.initial.born 2 with
    tasks := [1, 2], sweeper := 1, point := .begin
    listedLife := fun t => ((Process.initial.born 2).task t).life }

/-- The stop of task 2 up to its success, with nothing decided yet: tasks 1 and
2 are all there are. -/
theorem exists_stopped_two : ∃ s,
    Run Process.step (fun s e => s.Settled e ∧ s.point ≠ .success ∧ s.point ≠ .shortcut)
      .initial s ∧
      (s.point, s.tasks, s.workers, [s.task 1, s.task 2],
        [s.sweeper, s.listedLife 1, s.listedLife 2]) =
        (.success, [1, 2], [],
          [⟨true, 0, false, .out, 0, 0⟩, ⟨true, 1, false, .counted 0, 96, 160⟩], [1, 0, 1]) ∧
      ∀ t, (s.task t).alive = true → t = 1 ∨ t = 2 := by
  have vacuous (s : Process) (e : StopEvent)
      (other : s.point ≠ .begin ∧ s.point ≠ .success ∧ s.point ≠ .shortcut) :
      s.Settled e ∧ s.point ≠ .success ∧ s.point ≠ .shortcut :=
    ⟨fun here => absurd here other.1, other.2⟩
  have listed : Run Process.step
      (fun s e => s.Settled e ∧ s.point ≠ .success ∧ s.point ≠ .shortcut) .initial listedTwo :=
    Run.mono (Run.of_exec listTwo rfl) vacuous
  have two (t : Nat) (other : t ≠ 2) : listedTwo.task t = Process.initial.task t :=
    setTask_ne Process.initial _ other
  have settled : listedTwo.Settled (.next unlisted) := by
    intro _ _ t
    unfold Calm
    by_cases same : t = 2
    · subst same
      trivial
    · rw [two t same]
      trivial
  obtain ⟨s, rest, seen⟩ : ∃ s, Run Process.step
      (fun s e => (s.point ≠ .begin ∧ s.point ≠ .success ∧ s.point ≠ .shortcut) ∧
        e.births = false)
      { listedTwo with stopTargets := 0, point := .build 0 } s ∧
      (s.point, s.tasks, s.workers, [s.task 1, s.task 2],
        [s.sweeper, s.listedLife 1, s.listedLife 2]) =
        (.success, [1, 2], [],
          [⟨true, 0, false, .out, 0, 0⟩, ⟨true, 1, false, .counted 0, 96, 160⟩], [1, 0, 1]) :=
    Run.exists_exec stopTwo (by decide +kernel)
  have all (t : Nat) (alive : (s.task t).alive = true) : t = 1 ∨ t = 2 := by
    have old : (listedTwo.task t).alive = true :=
      rest.invariant (I := fun u => (u.task t).alive = true → (listedTwo.task t).alive = true) id
        (fun _ _ _ kept allowed taken now => kept (alive_of_step taken allowed.2 now)) alive
    by_cases same : t = 2
    · exact .inr same
    · rw [two t same] at old
      exact .inl (of_decide_eq_true old)
  exact ⟨s, (listed.tail ⟨settled, by decide, by decide⟩ rfl).trans
    (rest.mono fun s e allowed => vacuous s e allowed.1), seen, all⟩

/-- A stop whose target loads the generation and is then late: the sweep gives
up and resumes, and the next stop counts the handler, which leaves at once. -/
def lateHandler : List StopEvent :=
  listTwo ++ nexts 12 ++ [.deliver 2 96 160, .handler 2] ++
    [.next { unlisted with late := true }] ++ nexts 3 ++
    [.sweep 1, .next { unlisted with names := some [1, 2] }] ++ nexts 12 ++
    handlers 2 8 ++ nexts 3

/-- When the sweep decides, reading the directory names every task there is, and
no task has the id of a listed one that has ended. -/
def Named (s : Process) (e : StopEvent) : Prop :=
  ∀ a, e = .next a → s.point = .success ∨ s.point = .shortcut →
    (∀ t, (s.task t).alive = true → t ∈ a.names.getD []) ∧
      ∀ t ∈ s.tasks, (s.task t).alive = true → (s.task t).life = s.listedLife t

/-- The sweeping task, a worker, or a task the stop has signalled and that has
not ended. -/
def Known (s : Process) (signalled : Bool) (t : Nat) : Prop :=
  t = s.sweeper ∨ t ∈ s.workers ∨ signalled = true ∧ t ∈ s.tasks ∧ ¬ s.Gone t

/-- What a decision to recycle rests on. -/
structure Decision (s : Process) : Prop where
  short : s.point = .shortcut → s.tasks.length = 1 + s.workers.length
  known : ∀ signalled, s.point = .decided signalled → s.recycled = true →
    ∀ t, (s.task t).alive = true → s.Known signalled t

/-- A known task does not run. -/
theorem Known.not_running {signalled : Bool} {t : Nat} (ok : s.Invariant)
    (point : s.point = .decided signalled) (known : s.Known signalled t) : ¬ s.Running t := by
  rintro ⟨-, out, worker, sweeper⟩
  rcases known with self | mem | ⟨rfl, listed, exists'⟩
  · exact absurd (point.symm.trans (sweeper self)) (by simp)
  · exact worker mem
  · by_cases target : t ≠ s.sweeper
    · have held := ok.held (.inr point) listed ⟨target, worker⟩ exists'
      exact absurd (out.symm.trans held.1) (by simp)
    · exact absurd (point.symm.trans (sweeper (not_not.mp target))) (by simp)

/-- A step that changes tasks only, and lets none begin to exist. -/
theorem Decision.same (ok : s.Decision) (point : s'.point = s.point)
    (tasks : s'.tasks = s.tasks) (workers : s'.workers = s.workers)
    (sweeper : s'.sweeper = s.sweeper) (recycled : s'.recycled = s.recycled)
    (listed : s'.listedLife = s.listedLife)
    (task : ∀ t, (s'.task t).alive = (s.task t).alive ∧ (s'.task t).life = (s.task t).life) :
    s'.Decision where
  short := by
    rw [point, tasks, workers]
    exact ok.short
  known signalled := by
    rw [point, recycled]
    intro here again t alive
    rw [(task t).1] at alive
    have known := ok.known signalled here again t alive
    unfold Known Gone at known ⊢
    rw [sweeper, workers, tasks, listed, (task t).1, (task t).2]
    exact known

/-- The shortcut is taken for the sweeping task and the workers alone: they
fill the first listing. -/
theorem Decision.shortcut (ok : s.Invariant) (decision : s.Decision)
    (point : s.point = .shortcut) (sub : ∀ t, (s.task t).alive = true → t ∈ s.tasks) {t : Nat}
    (alive : (s.task t).alive = true) : t = s.sweeper ∨ t ∈ s.workers := by
  by_contra other
  obtain ⟨self, worker⟩ := not_or.mp other
  obtain ⟨here, free⟩ := ok.sound.sweeper (by simp [point])
  have distinct : (t :: s.sweeper :: s.workers).Nodup := by
    refine List.nodup_cons.mpr ⟨?_, List.nodup_cons.mpr ⟨free, ok.sound.workers.1⟩⟩
    simp [self, worker]
  have all : t :: s.sweeper :: s.workers ⊆ s.tasks := by
    intro u mem
    refine sub u ?_
    rcases List.mem_cons.mp mem with rfl | mem
    · exact alive
    rcases List.mem_cons.mp mem with rfl | mem
    · exact here
    · exact ok.sound.workers.2 u mem
  have short := (List.subperm_of_subset distinct all).length_le
  have count := decision.short point
  simp only [List.length_cons] at short
  omega

/-- A second listing that names nothing new names only listed tasks. -/
theorem mem_tasks_of_unchanged {names : Option (List Nat)} {tasks : List Nat}
    (same : threadsChanged tasks names = false) {t : Nat} (named : t ∈ names.getD []) :
    t ∈ tasks := by
  cases names with
  | none => exact absurd named (by simp)
  | some names =>
      simp only [threadsChanged, listTasks, Bool.or_eq_false_iff, decide_eq_false_iff_not,
        Nat.not_lt, List.any_eq_false] at same
      obtain ⟨short, all⟩ := same
      rw [List.take_of_length_le short] at all
      simpa using all t named

/-- The step that decides. -/
theorem Decision.decide (ok : s.Invariant) (decision : s.Decision) {a : StopAnswer}
    (named : s.Named (.next a)) (taken : s.sweepStep a = some s') {signalled : Bool}
    (decided : s'.point = .decided signalled) (recycled : s'.recycled = true) (t : Nat)
    (alive : (s'.task t).alive = true) : s'.Known signalled t := by
  unfold sweepStep at taken
  cases point : s.point with
  | success =>
      simp only [point] at taken
      obtain rfl := Option.some.inj taken
      obtain rfl := StopPoint.decided.inj decided
      obtain ⟨all, same⟩ := named a rfl (.inl point)
      simp only [Bool.and_eq_true, Bool.not_eq_true'] at recycled
      have listed := mem_tasks_of_unchanged recycled.2.2 (all t alive)
      refine .inr (.inr ⟨rfl, listed, ?_⟩)
      rintro (dead | later)
      · exact absurd (dead.symm.trans alive) (by simp)
      · have now := same t listed alive
        change s.listedLife t < (s.task t).life at later
        omega
  | shortcut =>
      simp only [point] at taken
      obtain rfl := Option.some.inj taken
      obtain rfl := StopPoint.decided.inj decided
      obtain ⟨all, -⟩ := named a rfl (.inr point)
      simp only [Bool.and_eq_true, Bool.not_eq_true'] at recycled
      have own := decision.shortcut ok point
        (fun u here => mem_tasks_of_unchanged recycled.2.2 (all u here)) alive
      exact own.imp_right .inl
  | idle => simp [point] at taken
  | listing =>
      simp only [point] at taken
      obtain rfl := Option.some.inj taken
      simp only at decided
      split_ifs at decided
  | build i =>
      simp only [point] at taken
      split at taken
      · obtain rfl := Option.some.inj taken
        exact absurd decided (by simp)
      · obtain rfl := Option.some.inj taken
        simp only at decided
        split_ifs at decided
  | send i n =>
      simp only [point] at taken
      split_ifs at taken
      all_goals
        obtain rfl := Option.some.inj taken
        exact absurd decided (by simp)
  | collect i =>
      simp only [point] at taken
      split_ifs at taken
      all_goals
        obtain rfl := Option.some.inj taken
        exact absurd decided (by simp)
  | poll n | check i n | probe i n =>
      simp only [point] at taken
      obtain rfl := Option.some.inj taken
      simp only at decided
      split_ifs at decided
  | begin | buildSp i | buildContext i | buildTask i | buildCount i | resetCount | setStopping
  | unsent i n | drop i n | failed | decided signalled | resumeStopping | resumeGeneration =>
      simp only [point] at taken
      obtain rfl := Option.some.inj taken
      exact absurd decided (by simp)

/-- The step to the shortcut has counted the listing. -/
theorem Decision.list {a : StopAnswer} (taken : s.sweepStep a = some s')
    (short : s'.point = .shortcut) : s'.tasks.length = 1 + s'.workers.length := by
  unfold sweepStep at taken
  cases point : s.point with
  | listing =>
      simp only [point] at taken
      obtain rfl := Option.some.inj taken
      simp only at short
      split_ifs at short with bad count
      · exact count
  | idle => simp [point] at taken
  | build i =>
      simp only [point] at taken
      split at taken
      · obtain rfl := Option.some.inj taken
        exact absurd short (by simp)
      · obtain rfl := Option.some.inj taken
        simp only at short
        split_ifs at short
  | send i n =>
      simp only [point] at taken
      split_ifs at taken
      all_goals
        obtain rfl := Option.some.inj taken
        exact absurd short (by simp)
  | collect i =>
      simp only [point] at taken
      split_ifs at taken
      all_goals
        obtain rfl := Option.some.inj taken
        exact absurd short (by simp)
  | poll n | check i n | probe i n =>
      simp only [point] at taken
      obtain rfl := Option.some.inj taken
      simp only at short
      split_ifs at short
  | begin | buildSp i | buildContext i | buildTask i | buildCount i | resetCount | setStopping
  | unsent i n | drop i n | failed | decided signalled | resumeStopping | resumeGeneration
  | success | shortcut =>
      simp only [point] at taken
      obtain rfl := Option.some.inj taken
      exact absurd short (by simp)

/-- Where nothing is decided yet, nothing is known. -/
theorem Decision.of_other (short : s.point ≠ .shortcut)
    (undecided : ∀ signalled, s.point ≠ .decided signalled) : s.Decision where
  short point := absurd point short
  known signalled point := absurd point (undecided signalled)

theorem Decision.step {e : StopEvent} (ok : s.Invariant) (decision : s.Decision)
    (named : s.Named e) (taken : s.step e = some s') : s'.Decision := by
  cases e with
  | create parent child =>
      simp only [Process.step] at taken
      split_ifs at taken with allowed
      obtain rfl := Option.some.inj taken
      refine ⟨decision.short, fun signalled point recycled => ?_⟩
      have known := decision.known signalled point recycled parent allowed.1.1
      exact absurd allowed.1 (known.not_running ok point)
  | worker child =>
      simp only [Process.step] at taken
      split_ifs at taken with allowed
      obtain rfl := Option.some.inj taken
      refine .of_other ?_ fun signalled => ?_
      · change s.point ≠ .shortcut
        simp [allowed.1]
      · change s.point ≠ .decided signalled
        simp [allowed.1]
  | exit t =>
      simp only [Process.step] at taken
      split_ifs at taken with running
      obtain rfl := Option.some.inj taken
      refine ⟨decision.short, fun signalled point recycled => ?_⟩
      have known := decision.known signalled point recycled t running.1
      exact absurd running (known.not_running ok point)
  | deliver t frame context =>
      simp only [Process.step] at taken
      split_ifs at taken
      obtain rfl := Option.some.inj taken
      refine decision.same rfl rfl rfl rfl rfl rfl fun u => ?_
      by_cases same : u = t
      · subst same
        simp
      · simp [setTask_ne _ _ same]
  | handler t =>
      obtain ⟨point, tasks, workers, sweeper, recycled, listed, task⟩ := handlerStep_same taken
      exact decision.same point tasks workers sweeper recycled listed task
  | sweep t =>
      simp only [Process.step] at taken
      split_ifs at taken
      obtain rfl := Option.some.inj taken
      exact .of_other (by simp) (by simp)
  | next a =>
      simp only [Process.step] at taken
      split_ifs at taken
      exact ⟨Decision.list taken, fun _ => decision.decide ok named taken⟩

/-- A task creates another between the listing and its own stop, and the second
listing fails. -/
def unseenTask : List StopEvent :=
  listTwo ++ [.create 2 3] ++ nexts 12 ++ [.deliver 2 96 160] ++ handlers 2 8 ++ nexts 4

end Process

end WeaveC.Sweep
