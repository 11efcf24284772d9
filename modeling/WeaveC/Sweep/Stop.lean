import WeaveC.Library.Transition
import Mathlib.Logic.Function.Basic

/-!
# Stopping the world

A sweep lists the process's tasks, signals those it must stop and waits until
as many have answered from the handler.  A step is one access of the sweeping
task, or of a handler, to what they share, or something the kernel does: a task
is created or ends, or a signal is delivered.

A task's id may be used again; `life` tells the tasks of one id apart.
`listedLife` and `answered` record what happened: the tasks of the first
listing, and those that counted themselves since the count was reset.
-/

namespace WeaveC.Sweep

def MaxThreads : Nat := 4096

/-! ## Tasks -/

/-- Where a task is in `stopHandler`: it carries the generation it loaded and
its place in the table. -/
inductive HandlerPoint where
  | out
  | entered
  | loaded (generation : BitVec 32)
  | scanning (generation : BitVec 32) (i : Nat)
  | comparing (generation : BitVec 32) (i : Nat)
  | checking (generation : BitVec 32) (i : Nat)
  | found (generation : BitVec 32) (i : Nat)
  | interrupted (generation : BitVec 32) (i : Nat)
  | counting (generation : BitVec 32) (i : Nat)
  | counted (generation : BitVec 32)
  deriving DecidableEq, Repr

/-- A task; `frame` and `context` are the stack pointers of its handler and of
what the handler interrupted. -/
structure Task where
  alive : Bool
  life : Nat
  pending : Bool
  handler : HandlerPoint
  frame : Nat
  context : Nat
  deriving DecidableEq, Repr

/-- Where the sweeping task is in `stopThreads`, with `sent`, and after it. -/
inductive StopPoint where
  | idle
  | listing
  | begin
  | build (i : Nat)
  | buildSp (i : Nat)
  | buildContext (i : Nat)
  | buildTask (i : Nat)
  | buildCount (i : Nat)
  | resetCount
  | setStopping
  | send (i sent : Nat)
  | unsent (i sent : Nat)
  | poll (sent : Nat)
  | check (i sent : Nat)
  | probe (i sent : Nat)
  | drop (i sent : Nat)
  | collect (i : Nat)
  | success
  | shortcut
  | failed
  | decided (signalled : Bool)
  | resumeStopping
  | resumeGeneration
  deriving DecidableEq, Repr

/-- The tasks of the process and what a stop uses. -/
structure Process where
  task : Nat → Task
  workers : List Nat
  stopGeneration : BitVec 32
  stopping : Bool
  stopTargets : Nat
  stopped : Nat → Nat
  stoppedSp : Nat → Nat
  stoppedInterruptedSp : Nat → Nat
  stoppedCount : Nat
  tasks : List Nat
  worldStacks : List Nat
  sweeper : Nat
  point : StopPoint
  recycled : Bool
  listedLife : Nat → Nat
  answered : List Nat

/-- What the system answers: the ids that reading the tasks' directory gave
(none when it could not be opened), whether a signal is free, whether the
deadline has passed, and whether the marks were mapped and every root was
scanned. -/
structure StopAnswer where
  names : Option (List Nat)
  ownSignal : Bool
  late : Bool
  prepared : Bool
  scanned : Bool
  deriving DecidableEq, Repr

inductive StopEvent where
  | create (parent child : Nat)
  | worker (child : Nat)
  | exit (t : Nat)
  | deliver (t frame context : Nat)
  | handler (t : Nat)
  | sweep (t : Nat)
  | next (answer : StopAnswer)
  deriving DecidableEq, Repr

/-- `listTasks`: the ids and whether there were too many. -/
def listTasks (names : Option (List Nat)) : List Nat × Bool :=
  match names with
  | none => ([], false)
  | some names => (names.take MaxThreads, MaxThreads < names.length)

/-- `threadsChanged`, against the ids of the first listing. -/
def threadsChanged (tasks : List Nat) (names : Option (List Nat)) : Bool :=
  let (now, overflow) := listTasks names
  overflow || now.any fun t => !tasks.contains t

namespace Process

/-- A process of one task. -/
def initial : Process :=
  { task := fun t => ⟨t = 1, 0, false, .out, 0, 0⟩
    workers := [], stopGeneration := 0, stopping := false, stopTargets := 0
    stopped := fun _ => 0, stoppedSp := fun _ => 0, stoppedInterruptedSp := fun _ => 0
    stoppedCount := 0, tasks := [], worldStacks := [], sweeper := 0, point := .idle
    recycled := false, listedLife := fun _ => 0, answered := [] }

def setTask (s : Process) (t : Nat) (task : Task) : Process :=
  { s with task := Function.update s.task t task }

/-- Whether the task runs its own code: not in the handler, and not inside a
sweep. -/
def Running (s : Process) (t : Nat) : Prop :=
  (s.task t).alive = true ∧ (s.task t).handler = .out ∧ t ∉ s.workers ∧
    (t = s.sweeper → s.point = .idle)

instance (s : Process) (t : Nat) : Decidable (s.Running t) :=
  inferInstanceAs (Decidable (_ ∧ _))

/-! ## Steps -/

/-- One step of `stopHandler` on task `t`. -/
def handlerStep (s : Process) (t : Nat) : Option Process :=
  let task := s.task t
  let goto (s : Process) (p : HandlerPoint) : Option Process :=
    some (s.setTask t { task with handler := p })
  match task.handler with
  | .out => none
  | .entered => goto s (.loaded s.stopGeneration)
  | .loaded g => goto s (if s.stopping then .scanning g 0 else .out)
  | .scanning g i => goto s (if i < s.stopTargets then .comparing g i else .checking g i)
  | .comparing g i => goto s (if s.stopped i = t then .checking g i else .scanning g (i + 1))
  | .checking g i => goto s (if i = s.stopTargets then .out else .found g i)
  | .found g i =>
      goto { s with stoppedSp := Function.update s.stoppedSp i task.frame } (.interrupted g i)
  | .interrupted g i =>
      goto
        { s with
          stoppedInterruptedSp := Function.update s.stoppedInterruptedSp i task.context }
        (.counting g i)
  | .counting g _ =>
      goto { s with stoppedCount := s.stoppedCount + 1, answered := t :: s.answered }
        (.counted g)
  | .counted g => goto s (if s.stopGeneration = g then .counted g else .out)

/-- The stack pointers recorded for the target at `i`. -/
def stackOf (s : Process) (i : Nat) : List Nat :=
  if s.stopped i = 0 ∨ s.stoppedSp i = 0 then []
  else if s.stoppedInterruptedSp i ≠ 0 then [s.stoppedSp i, s.stoppedInterruptedSp i]
  else [s.stoppedSp i]

/-- One step of the sweeping task: `stopThreads`, the decision to recycle, and
`resumeThreads`. -/
def sweepStep (s : Process) (a : StopAnswer) : Option Process :=
  let goto (s : Process) (p : StopPoint) : Option Process := some { s with point := p }
  match s.point with
  | .idle => none
  | .listing =>
      let (names, overflow) := listTasks a.names
      goto
        { s with
          tasks := names, worldStacks := [], recycled := false
          listedLife := fun t => (s.task t).life }
        (if overflow ∨ names.length = 0 then .failed
        else if names.length = 1 + s.workers.length then .shortcut
        else if a.ownSignal then .begin
        else .failed)
  | .begin => goto { s with stopTargets := 0 } (.build 0)
  | .build i =>
      match s.tasks[i]? with
      | none => goto s .resetCount
      | some t => goto s (if t ≠ s.sweeper ∧ t ∉ s.workers then .buildSp i else .build (i + 1))
  | .buildSp i =>
      goto { s with stoppedSp := Function.update s.stoppedSp s.stopTargets 0 } (.buildContext i)
  | .buildContext i =>
      goto
        { s with
          stoppedInterruptedSp := Function.update s.stoppedInterruptedSp s.stopTargets 0 }
        (.buildTask i)
  | .buildTask i =>
      goto { s with stopped := Function.update s.stopped s.stopTargets ((s.tasks[i]?).getD 0) }
        (.buildCount i)
  | .buildCount i => goto { s with stopTargets := s.stopTargets + 1 } (.build (i + 1))
  | .resetCount => goto { s with stoppedCount := 0, answered := [] } .setStopping
  | .setStopping => goto { s with stopping := true } (.send 0 0)
  | .send i sent =>
      if i < s.stopTargets then
        let t := s.stopped i
        if (s.task t).alive then
          goto (s.setTask t { s.task t with pending := true }) (.send (i + 1) (sent + 1))
        else goto s (.unsent i sent)
      else goto s (.poll sent)
  | .unsent i sent =>
      goto { s with stopped := Function.update s.stopped i 0 } (.send (i + 1) sent)
  | .poll sent =>
      goto s (if sent ≤ s.stoppedCount then .collect 0
        else if a.late then .failed
        else .check 0 sent)
  | .check i sent =>
      goto s (if i < s.stopTargets then
          if s.stopped i ≠ 0 ∧ s.stoppedSp i = 0 then .probe i sent else .check (i + 1) sent
        else .poll sent)
  | .probe i sent =>
      goto s (if (s.task (s.stopped i)).alive then .check (i + 1) sent else .drop i sent)
  | .drop i sent =>
      goto { s with stopped := Function.update s.stopped i 0 } (.check (i + 1) (sent - 1))
  | .collect i =>
      if i < s.stopTargets then
        goto { s with worldStacks := s.worldStacks ++ s.stackOf i } (.collect (i + 1))
      else goto s .success
  | .success =>
      goto { s with recycled := a.prepared && (a.scanned && !threadsChanged s.tasks a.names) }
        (.decided true)
  | .shortcut =>
      goto { s with recycled := a.prepared && (a.scanned && !threadsChanged s.tasks a.names) }
        (.decided false)
  | .failed => goto s .resumeStopping
  | .decided _ => goto s .resumeStopping
  | .resumeStopping => goto { s with stopping := false } .resumeGeneration
  | .resumeGeneration => goto { s with stopGeneration := s.stopGeneration + 1 } .idle

/-- A new task, with no signal pending. -/
def born (s : Process) (t : Nat) : Process :=
  s.setTask t ⟨true, (s.task t).life + 1, false, .out, 0, 0⟩

def step (s : Process) : StopEvent → Option Process
  | .create parent child =>
      if s.Running parent ∧ child ≠ 0 ∧ (s.task child).alive = false then some (s.born child)
      else none
  | .worker child =>
      if s.point = .idle ∧ child ≠ 0 ∧ (s.task child).alive = false then
        some { s.born child with workers := s.workers ++ [child] }
      else none
  | .exit t =>
      if s.Running t then
        some (s.setTask t { s.task t with alive := false, pending := false })
      else none
  | .deliver t frame context =>
      let task := s.task t
      if task.alive ∧ task.pending ∧ task.handler = .out ∧ frame ≠ 0 then
        some (s.setTask t { task with pending := false, handler := .entered, frame, context })
      else none
  | .handler t => s.handlerStep t
  | .sweep t =>
      if s.Running t ∧ s.point = .idle then some { s with sweeper := t, point := .listing }
      else none
  | .next a => if (s.task s.sweeper).handler = .out then s.sweepStep a else none

end Process

end WeaveC.Sweep
