import WeaveC.Locks.Order
import WeaveC.Library.Transition
import Mathlib.Logic.Relation

/-!
# Threads, locks and the stopped world

Any number of threads run the runtime's functions one action at a time.  A
sweep stops the others wherever they are, its workers apart; a fork leaves one
thread of them.
-/

namespace WeaveC.Locks

open WeaveC.Library

inductive Status where
  | fresh
  | running
  | frozen
  | gone
deriving DecidableEq

structure Thread where
  status : Status
  code : Program
  hold : Hold
  /-- `seen` of `markWorker` -/
  seen : Nat

def Thread.Alive (th : Thread) : Prop := th.status = .running ∨ th.status = .frozen

def Thread.unborn : Thread := ⟨.fresh, .skip, Hold.nothing, 0⟩

/-- A stopped thread runs again. -/
def Thread.thaw (th : Thread) : Thread :=
  if th.status = .frozen then { th with status := .running } else th

/-- A thread of the parent's is not in the child. -/
def Thread.leave (th : Thread) : Thread :=
  if th.status = .fresh then th else { th with status := .gone }

/-- The mutex is made anew: what a thread of the parent's held of it is gone. -/
def Thread.loseWork (th : Thread) : Thread :=
  if th.status = .gone then
    { th with hold := { th.hold with locks := th.hold.locks.erase .workLock } }
  else th

structure State (T : Type) where
  thread : T → Thread
  /-- The lock words -/
  word : Lock → Bool
  /-- Who set `stopping` -/
  stopper : Option T
  /-- `workerThreads`, the newest first; no stop comes before `workerCount`
  says so. -/
  workers : List T
  /-- `workRound` -/
  round : Nat

inductive Event (T : Type) where
  /-- `pthread_create` by the program -/
  | start (t : T)
  /-- The program, or a C library function the thread is in, calls. -/
  | enter (t : T) (e : Entry)
  | turn (t : T) (d : Turn Region)
  | act (t : T)
  /-- `pthread_create` of worker `w` -/
  | create (t w : T)
  /-- The signal arrives. -/
  | freeze (t : T)

namespace State

variable {T : Type} [DecidableEq T]

def initial (main : T) : State T where
  thread := Function.update (fun _ => Thread.unborn) main { Thread.unborn with status := .running }
  word _ := false
  stopper := none
  workers := []
  round := 0

def set (s : State T) (t : T) (th : Thread) : State T :=
  { s with thread := Function.update s.thread t th }

/-- The thread past its action. -/
def advance (s : State T) (t : T) (a : Action) : State T :=
  s.set t { s.thread t with code := (s.thread t).code.rest, hold := (s.thread t).hold.after a }

def perform (s : State T) (t : T) (a : Action) : Option (State T) :=
  let s' := s.advance t a
  match a with
  | .lock l | .tryLock l =>
    if s.word l then none else some { s' with word := Function.update s.word l true }
  | .unlock l => some { s' with word := Function.update s.word l false }
  | .stopThreads => some { s' with stopper := some t }
  | .resumeThreads =>
    some { s' with stopper := none, thread := fun u => (s'.thread u).thaw }
  | .createWorker => none
  | .awaitWorker =>
    if s.workers.head?.all fun w => (s.thread w).hold.mode ≠ .starting then some s' else none
  | .startRound => some { s' with round := s.round + 1 }
  | .seeRound => some (s'.set t { s'.thread t with seen := s.round })
  | .enterChild =>
    some { s' with thread := fun u => if u = t then s'.thread u else (s'.thread u).leave }
  | .initWorkLock =>
    some { s' with
      word := Function.update s.word .workLock false
      workers := []
      round := 0
      thread := fun u => (s'.thread u).loseWork }
  | _ => some s'

def step (s : State T) : Event T → Option (State T)
  | .start t =>
    if (s.thread t).status = .fresh then some (s.set t { Thread.unborn with status := .running })
    else none
  | .enter t e =>
    if (s.thread t).status = .running ∧ (s.thread t).hold.locks = [] ∧
        (s.thread t).hold.mode = .plain then
      some (s.set t { s.thread t with code := .seq e.program (s.thread t).code })
    else none
  | .turn t d =>
    if (s.thread t).status = .running then
      ((s.thread t).code.resolve Procedure.body d).map fun c =>
        s.set t { s.thread t with code := c }
    else none
  | .act t =>
    if (s.thread t).status = .running then (s.thread t).code.head.bind (s.perform t) else none
  | .create t w =>
    if (s.thread t).status = .running ∧ (s.thread t).code.head = some .createWorker ∧
        (s.thread w).status = .fresh then
      some { (s.advance t .createWorker).set w ⟨.running, markWorker, ⟨[], .starting⟩, 0⟩ with
        workers := w :: s.workers }
    else none
  | .freeze t =>
    if (s.thread t).status = .running ∧ s.stopper.any (· ≠ t) ∧ t ∉ s.workers then
      some (s.set t { s.thread t with status := .frozen })
    else none

/-- The states any interleaving reaches. -/
def Reachable (main : T) (s : State T) : Prop := Run step (fun _ _ => True) (initial main) s

/-- The thread is at an acquisition of the lock. -/
def Wants (s : State T) (t : T) (l : Lock) : Prop :=
  (s.thread t).Alive ∧
    ((s.thread t).code.head = some (.lock l) ∨ (s.thread t).code.head = some (.tryLock l))

def Holds (s : State T) (t : T) (l : Lock) : Prop := l ∈ (s.thread t).hold.locks

/-- The worker has marked in the round the sweep started last. -/
def Finished (s : State T) (w : T) : Prop :=
  (s.thread w).hold.mode = .idle ∧ (s.thread w).seen = s.round

/-- Thread `t` cannot go on before `u` does something. -/
inductive WaitsFor (s : State T) : T → T → Prop where
  | lock {t u : T} {l : Lock} : s.Wants t l → s.Holds u l → WaitsFor s t u
  | stopped {t u : T} : (s.thread t).status = .frozen → s.stopper = some u → WaitsFor s t u
  /-- The sweep spins for a new worker's thread id. -/
  | worker {t w : T} : (s.thread t).Alive → (s.thread t).code.head = some .awaitWorker →
      s.workers.head? = some w → (s.thread w).hold.mode = .starting → WaitsFor s t w
  /-- The sweep sleeps until the workers are done. -/
  | done {t w : T} : (s.thread t).Alive → (s.thread t).code.head = some .awaitDone →
      w ∈ s.workers → ¬ s.Finished w → WaitsFor s t w
  /-- A worker sleeps until a sweep starts a round. -/
  | go {w u : T} : (s.thread w).Alive → (s.thread w).code.head = some .awaitGo →
      (s.thread w).seen = s.round → s.Holds u .sweepLock → WaitsFor s w u

end State

end WeaveC.Locks
