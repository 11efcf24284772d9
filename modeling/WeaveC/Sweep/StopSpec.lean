import WeaveC.Sweep.Stop
import Mathlib.Data.Finset.Card
import Mathlib.Data.Finset.Range

/-!
# What a stop achieves

If no handler is on its way to count itself for an earlier stop when a stop
begins, then a stop that succeeds holds every listed task that still exists in
the handler until the generation moves on, and counts none twice.
-/

namespace WeaveC.Sweep

open WeaveC.Library

namespace StopPoint

/-- While the table of targets is made. -/
def Building : StopPoint → Prop
  | .build _ | .buildSp _ | .buildContext _ | .buildTask _ | .buildCount _ | .resetCount
  | .setStopping => True
  | _ => False

/-- While a stop that signals its targets waits for them, or has them. -/
def Asking : StopPoint → Prop
  | .send _ _ | .unsent _ _ | .poll _ | .check _ _ | .probe _ _ | .drop _ _ | .collect _
  | .success | .decided true => True
  | _ => False

/-- Where no stop is in progress as the handlers see it. -/
def Unasked : StopPoint → Prop
  | .idle | .listing | .begin | .shortcut | .decided false | .resumeGeneration => True
  | p => p.Building

instance (p : StopPoint) : Decidable p.Asking := by
  unfold Asking
  split <;> infer_instance

end StopPoint

namespace Process

variable {s s' : Process}

/-- A listed task of this id has ended since the listing. -/
def Gone (s : Process) (t : Nat) : Prop :=
  (s.task t).alive = false ∨ s.listedLife t < (s.task t).life

/-- A task the stop signals. -/
def Target (s : Process) (t : Nat) : Prop := t ≠ s.sweeper ∧ t ∉ s.workers

/-- The task's handler will not count itself for an earlier stop. -/
def Calm (s : Process) (t : Nat) : Prop :=
  match (s.task t).handler with
  | .out | .entered | .counted _ => True
  | .loaded g => g = s.stopGeneration
  | _ => False

instance (s : Process) (t : Nat) : Decidable (s.Calm t) := by
  unfold Calm
  split <;> infer_instance

/-- When a stop begins, no handler is on its way to count itself for an earlier
one. -/
def Settled (s : Process) (e : StopEvent) : Prop :=
  s.point = .begin → (∃ a, e = .next a) → ∀ t, s.Calm t

/-- In the handler's wait for the end of this stop, with its stack pointer
recorded. -/
def Held (s : Process) (t : Nat) : Prop :=
  (s.task t).handler = .counted s.stopGeneration ∧
    ∃ i, i < s.stopTargets ∧ s.stopped i = t ∧ s.stoppedSp i = (s.task t).frame ∧
      (s.task t).frame ∈ s.worldStacks

/-! ## The invariant -/

/-- What holds at every point of a sweep. -/
structure Sound (s : Process) : Prop where
  alive : ∀ t, (s.task t).handler ≠ .out → (s.task t).alive = true ∧ (s.task t).frame ≠ 0
  pending : ∀ t, (s.task t).pending = true → (s.task t).alive = true
  life : ∀ t, s.listedLife t ≤ (s.task t).life
  zero : (s.task 0).alive = false
  workers : s.workers.Nodup ∧ ∀ t ∈ s.workers, (s.task t).alive = true
  sweeper : s.point ≠ .idle → (s.task s.sweeper).alive = true ∧ s.sweeper ∉ s.workers
  flag : s.point.Unasked → s.stopping = false

/-- Where a handler may be while a stop waits: on its way to the entry of its
own task. -/
def Answering (s : Process) (t : Nat) : Prop :=
  match (s.task t).handler with
  | .out | .entered | .counted _ => True
  | .loaded g => g = s.stopGeneration
  | .scanning g i => g = s.stopGeneration ∧ i ≤ s.stopTargets
  | .comparing g i => g = s.stopGeneration ∧ i < s.stopTargets
  | .checking g i =>
      g = s.stopGeneration ∧ i ≤ s.stopTargets ∧ (i < s.stopTargets → s.stopped i = t)
  | .found g i => g = s.stopGeneration ∧ i < s.stopTargets ∧ s.stopped i = t
  | .interrupted g i | .counting g i =>
      g = s.stopGeneration ∧ i < s.stopTargets ∧ s.stopped i = t ∧
        s.stoppedSp i = (s.task t).frame

/-- What the handlers have told a stop that waits. -/
structure Asked (s : Process) : Prop where
  handler : ∀ t, s.Answering t
  answered : ∀ t ∈ s.answered, (s.task t).handler = .counted s.stopGeneration ∧
    ∃ i, i < s.stopTargets ∧ s.stopped i = t ∧ s.stoppedSp i = (s.task t).frame
  once : s.answered.Nodup
  count : s.stoppedCount = s.answered.length

/-- How much of the listing the table of targets covers. -/
def covered (s : Process) : Nat :=
  match s.point with
  | .build i | .buildSp i | .buildContext i | .buildTask i | .buildCount i => i
  | .resetCount | .setStopping | .send _ _ | .unsent _ _ | .poll _ | .check _ _ | .probe _ _
  | .drop _ _ | .collect _ | .success | .decided true => s.tasks.length
  | _ => 0

/-- How many of the first `n` targets are not given up. -/
def targetsBelow (s : Process) (n : Nat) : Nat :=
  ((Finset.range n).filter fun i => s.stopped i ≠ 0).card

/-- What `sent` counts. -/
def SentOk (s : Process) : Prop :=
  match s.point with
  | .send i sent => sent = s.targetsBelow i ∧ i ≤ s.stopTargets
  | .unsent i sent => sent = s.targetsBelow i ∧ i < s.stopTargets
  | .poll sent | .check _ sent => sent = s.targetsBelow s.stopTargets
  | .probe i sent | .drop i sent =>
      sent = s.targetsBelow s.stopTargets ∧ i < s.stopTargets ∧ s.stopped i ≠ 0
  | _ => True

/-- A target about to be given up has ended, and no signal of the sweep's
reaches a new task of its id. -/
def AbsentOk (s : Process) : Prop :=
  match s.point with
  | .unsent i _ | .drop i _ =>
      (s.task (s.stopped i)).handler = .out ∧ (s.task (s.stopped i)).pending = false ∧
        s.Gone (s.stopped i)
  | _ => True

/-- Which targets' stack pointers the world has. -/
def StacksOk (s : Process) : Prop :=
  match s.point with
  | .collect i => ∀ k, k < i → k < s.stopTargets → s.stopped k ≠ 0 → s.stoppedSp k ∈ s.worldStacks
  | .success | .decided true =>
      ∀ k, k < s.stopTargets → s.stopped k ≠ 0 → s.stoppedSp k ∈ s.worldStacks
  | _ => True

/-- When the wait is over, every target has answered, from its own entry. -/
def AnsweredOk (s : Process) : Prop :=
  match s.point with
  | .collect _ | .success | .decided true =>
      ∀ k, k < s.stopTargets → s.stopped k ≠ 0 →
        s.stopped k ∈ s.answered ∧ ∀ j, j < s.stopTargets → s.stopped j = s.stopped k → j = k
  | _ => True

/-- What holds between two steps of runs that settle before each stop. -/
structure Invariant (s : Process) : Prop where
  sound : s.Sound
  calm : s.point.Building → ∀ t, s.Calm t
  start : s.point = .setStopping → s.stoppedCount = 0 ∧ s.answered = []
  asked : s.point.Asking → s.Asked
  cover : ∀ k t, k < s.covered → s.tasks[k]? = some t → s.Target t →
    s.Gone t ∨ ∃ j, j < s.stopTargets ∧ s.stopped j = t
  last : ∀ i t, s.point = .buildCount i → s.tasks[i]? = some t → s.stopped s.stopTargets = t
  sent : s.SentOk
  absent : s.AbsentOk
  full : s.AnsweredOk
  recorded : s.StacksOk

@[simp] theorem setTask_self (s : Process) (t : Nat) (x : Task) : (s.setTask t x).task t = x :=
  Function.update_self _ _ _

theorem setTask_ne (s : Process) {t u : Nat} (x : Task) (other : u ≠ t) :
    (s.setTask t x).task u = s.task u :=
  Function.update_of_ne other _ _

/-! ## Three kinds of points -/

theorem Invariant.of_sound (sound : s.Sound) (built : ¬ s.point.Building)
    (unasked : ¬ s.point.Asking) : s.Invariant := by
  refine
    { sound, calm := fun building => absurd building built
      start := fun point => absurd (by rw [point]; trivial) built
      asked := fun asking => absurd asking unasked
      cover := ?_
      last := fun i _ point => absurd (by rw [point]; trivial) built
      sent := ?_, absent := ?_, full := ?_, recorded := ?_ }
  all_goals
    simp only [covered, SentOk, AbsentOk, AnsweredOk, StacksOk]
    split <;>
      first
      | trivial
      | (intro k t below; exact absurd below (Nat.not_lt_zero k))
      | (rename_i point; exact absurd (by rw [point]; trivial) built)
      | (rename_i point; exact absurd (by rw [point]; trivial) unasked)

theorem Invariant.of_building (sound : s.Sound) (building : s.point.Building)
    (calm : ∀ t, s.Calm t) (start : s.point = .setStopping → s.stoppedCount = 0 ∧ s.answered = [])
    (cover : ∀ k t, k < s.covered → s.tasks[k]? = some t → s.Target t →
      s.Gone t ∨ ∃ j, j < s.stopTargets ∧ s.stopped j = t)
    (last : ∀ i t, s.point = .buildCount i → s.tasks[i]? = some t →
      s.stopped s.stopTargets = t) : s.Invariant := by
  have unasked : ¬ s.point.Asking := by
    unfold StopPoint.Asking
    unfold StopPoint.Building at building
    split at building <;> simp_all
  refine
    { sound, calm := fun _ => calm, start, asked := fun asking => absurd asking unasked
      cover, last, sent := ?_, absent := ?_, full := ?_, recorded := ?_ }
  all_goals
    simp only [SentOk, AbsentOk, AnsweredOk, StacksOk]
    split <;>
      first
      | trivial
      | (rename_i point; exact absurd (by rw [point]; trivial) unasked)

theorem Invariant.of_asking (sound : s.Sound) (asking : s.point.Asking) (asked : s.Asked)
    (cover : ∀ k t, k < s.covered → s.tasks[k]? = some t → s.Target t →
      s.Gone t ∨ ∃ j, j < s.stopTargets ∧ s.stopped j = t)
    (sent : s.SentOk) (absent : s.AbsentOk) (full : s.AnsweredOk) (recorded : s.StacksOk) :
    s.Invariant := by
  have built : ¬ s.point.Building := by
    unfold StopPoint.Building
    unfold StopPoint.Asking at asking
    split at asking <;> simp_all
  exact
    { sound, calm := fun building => absurd building built
      start := fun point => absurd (by rw [point]; trivial) built
      asked := fun _ => asked, cover
      last := fun i _ point => absurd (by rw [point]; trivial) built
      sent, absent, full, recorded }

/-! ## What the kernel does -/

/-- A task that is not in the handler begins, ends or is interrupted. -/
structure Outside (s : Process) (t : Nat) (x : Task) : Prop where
  out : (s.task t).handler = .out
  handler : x.handler = .out ∨ x.handler = .entered ∧ (s.task t).pending = true
  pending : x.pending = true → (s.task t).pending = true
  life : (s.task t).life ≤ x.life
  gone : s.Gone t → (s.setTask t x).Gone t
  alive : x.handler ≠ .out ∨ x.pending = true → x.alive = true
  frame : x.handler ≠ .out → x.frame ≠ 0
  zero : t = 0 → x.alive = false
  kept : x.alive = false → t ∉ s.workers ∧ (t = s.sweeper → s.point = .idle)

namespace Outside

variable {t : Nat} {x : Task}

theorem sound (outside : s.Outside t x) (sound : s.Sound) : (s.setTask t x).Sound where
  alive u inside := by
    by_cases same : u = t
    · subst same
      rw [setTask_self] at inside ⊢
      exact ⟨outside.alive (.inl inside), outside.frame inside⟩
    · rw [setTask_ne s x same] at inside ⊢
      exact sound.alive u inside
  pending u pending := by
    by_cases same : u = t
    · subst same
      rw [setTask_self] at pending ⊢
      exact outside.alive (.inr pending)
    · rw [setTask_ne s x same] at pending ⊢
      exact sound.pending u pending
  life u := by
    by_cases same : u = t
    · subst same
      rw [setTask_self]
      exact (sound.life u).trans outside.life
    · rw [setTask_ne s x same]
      exact sound.life u
  zero := by
    by_cases same : 0 = t
    · subst same
      rw [setTask_self]
      exact outside.zero rfl
    · rw [setTask_ne s x same]
      exact sound.zero
  workers := by
    refine ⟨sound.workers.1, fun u mem => ?_⟩
    by_cases same : u = t
    · subst same
      rw [setTask_self]
      by_contra dead
      exact (outside.kept (by simpa using dead)).1 mem
    · rw [setTask_ne s x same]
      exact sound.workers.2 u mem
  sweeper busy := by
    obtain ⟨alive, free⟩ := sound.sweeper busy
    refine ⟨?_, free⟩
    change ((s.setTask t x).task s.sweeper).alive = true
    by_cases same : s.sweeper = t
    · subst same
      rw [setTask_self]
      by_contra dead
      exact busy ((outside.kept (by simpa using dead)).2 rfl)
    · rw [setTask_ne s x same]
      exact alive
  flag := sound.flag

theorem invariant (outside : s.Outside t x) (ok : s.Invariant) : (s.setTask t x).Invariant := by
  have free : x.handler = .out ∨ x.handler = .entered := outside.handler.imp_right And.left
  refine
    { sound := outside.sound ok.sound
      calm := fun building u => ?_
      start := ok.start
      asked := fun asking => ?_
      cover := fun k u below listed target => ?_
      last := ok.last, sent := ok.sent
      absent := ?_
      full := ok.full, recorded := ok.recorded }
  · by_cases same : u = t
    · subst same
      unfold Calm
      rw [setTask_self]
      rcases free with free | free <;> rw [free] <;> trivial
    · have calm := ok.calm building u
      unfold Calm at calm ⊢
      rw [setTask_ne s x same]
      exact calm
  · have asked := ok.asked asking
    refine
      { handler := fun u => ?_, answered := fun u mem => ?_, once := asked.once
        count := asked.count }
    · by_cases same : u = t
      · subst same
        unfold Answering
        rw [setTask_self]
        rcases free with free | free <;> rw [free] <;> trivial
      · have here := asked.handler u
        unfold Answering at here ⊢
        rw [setTask_ne s x same]
        exact here
    · have other : u ≠ t := by
        rintro rfl
        exact absurd ((asked.answered u mem).1.symm.trans outside.out) (by simp)
      rw [setTask_ne s x other]
      exact asked.answered u mem
  · refine (ok.cover k u below listed target).imp_left fun gone => ?_
    by_cases same : u = t
    · subst same
      exact outside.gone gone
    · unfold Gone
      rw [setTask_ne s x same]
      exact gone
  · have keep (i : Nat)
        (absent : (s.task (s.stopped i)).handler = .out ∧
          (s.task (s.stopped i)).pending = false ∧ s.Gone (s.stopped i)) :
        ((s.setTask t x).task (s.stopped i)).handler = .out ∧
          ((s.setTask t x).task (s.stopped i)).pending = false ∧
            (s.setTask t x).Gone (s.stopped i) := by
      obtain ⟨out, quiet, gone⟩ := absent
      by_cases same : s.stopped i = t
      · rw [same, setTask_self]
        rw [same] at quiet gone
        refine ⟨?_, ?_, outside.gone gone⟩
        · rcases outside.handler with out | ⟨-, pending⟩
          · exact out
          · exact absurd (quiet.symm.trans pending) (by simp)
        · by_contra pending
          have := outside.pending (by simpa using pending)
          exact absurd (quiet.symm.trans this) (by simp)
      · unfold Gone at gone ⊢
        rw [setTask_ne s x same]
        exact ⟨out, quiet, gone⟩
    have absent := ok.absent
    unfold AbsentOk at absent ⊢
    change match s.point with
      | .unsent i _ | .drop i _ => _
      | _ => True
    split at absent
    · exact keep _ absent
    · exact keep _ absent
    · trivial

end Outside

theorem Invariant.born {t : Nat} (ok : s.Invariant) (named : t ≠ 0)
    (free : (s.task t).alive = false) : (s.born t).Invariant := by
  have out : (s.task t).handler = .out := by
    by_contra inside
    exact absurd (free.symm.trans (ok.sound.alive t inside).1) (by simp)
  refine Outside.invariant
    { out, handler := .inl rfl
      pending := fun pending => absurd pending (by simp)
      life := Nat.le_succ _
      gone := fun _ => .inr ?_
      alive := fun _ => rfl
      frame := fun inside => absurd rfl inside
      zero := fun zero => absurd zero named
      kept := fun dead => absurd dead (by simp) } ok
  rw [setTask_self]
  exact Nat.lt_succ_of_le (ok.sound.life t)

theorem Invariant.exit {t : Nat} (ok : s.Invariant) (running : s.Running t) :
    (s.setTask t { s.task t with alive := false, pending := false }).Invariant := by
  obtain ⟨-, out, worker, sweeper⟩ := running
  refine Outside.invariant
    { out, handler := .inl out
      pending := fun pending => absurd pending (by simp)
      life := Nat.le_refl _
      gone := fun _ => .inl ?_
      alive := fun some => ?_
      frame := fun inside => absurd out inside
      zero := fun _ => rfl
      kept := fun _ => ⟨worker, sweeper⟩ } ok
  · rw [setTask_self]
  · rcases some with inside | pending
    · exact absurd out inside
    · exact absurd pending (by simp)

theorem Invariant.deliver {t frame context : Nat} (ok : s.Invariant)
    (alive : (s.task t).alive = true) (pending : (s.task t).pending = true)
    (out : (s.task t).handler = .out) (some : frame ≠ 0) :
    (s.setTask t
      { s.task t with pending := false, handler := .entered, frame, context }).Invariant := by
  refine Outside.invariant
    { out, handler := .inr ⟨rfl, pending⟩
      pending := fun again => absurd again (by simp)
      life := Nat.le_refl _
      gone := fun gone => ?_
      alive := fun _ => alive
      frame := fun _ => some
      zero := fun zero => ?_
      kept := fun dead => absurd (alive.symm.trans dead) (by simp) } ok
  · unfold Gone at gone ⊢
    rw [setTask_self]
    exact gone
  · subst zero
    exact absurd (ok.sound.zero.symm.trans alive) (by simp)

/-- A worker is created between sweeps. -/
theorem Invariant.worker {t : Nat} (ok : s.Invariant) (idle : s.point = .idle) (named : t ≠ 0)
    (free : (s.task t).alive = false) :
    ({ s.born t with workers := s.workers ++ [t] } : Process).Invariant := by
  have born := (ok.born named free).sound
  have new : t ∉ s.workers := fun mem =>
    absurd (free.symm.trans (ok.sound.workers.2 t mem)) (by simp)
  have notBuilding : ¬ s.point.Building := by
    rw [idle]
    exact id
  have notAsking : ¬ s.point.Asking := by
    rw [idle]
    exact id
  refine .of_sound ?_ notBuilding notAsking
  exact
    { alive := born.alive, pending := born.pending, life := born.life, zero := born.zero
      workers := by
        refine ⟨ok.sound.workers.1.append (by simp) (by simpa using new), fun u mem => ?_⟩
        rcases List.mem_append.mp mem with old | added
        · exact born.workers.2 u old
        · obtain rfl := List.mem_singleton.mp added
          change ((s.born u).task u).alive = true
          rw [Process.born, setTask_self]
      sweeper := fun busy => absurd idle busy
      flag := born.flag }

/-! ## What a handler does -/

/-- Task `t` with its handler at another point. -/
def moveHandler (s : Process) (t : Nat) (p : HandlerPoint) : Process :=
  s.setTask t { s.task t with handler := p }

section Handler

variable {t : Nat} {p : HandlerPoint}

@[simp] theorem moveHandler_self : (s.moveHandler t p).task t = { s.task t with handler := p } :=
  setTask_self _ _ _

theorem moveHandler_ne {u : Nat} (other : u ≠ t) : (s.moveHandler t p).task u = s.task u :=
  setTask_ne _ _ other

/-- Nothing but the handler's place changes. -/
theorem moveHandler_facts (u : Nat) :
    ((s.moveHandler t p).task u).alive = (s.task u).alive ∧
      ((s.moveHandler t p).task u).life = (s.task u).life ∧
      ((s.moveHandler t p).task u).pending = (s.task u).pending ∧
      ((s.moveHandler t p).task u).frame = (s.task u).frame := by
  by_cases same : u = t
  · subst same
    simp
  · simp [moveHandler_ne same]

theorem moveHandler_gone (u : Nat) : (s.moveHandler t p).Gone u ↔ s.Gone u := by
  obtain ⟨alive, life, -, -⟩ := moveHandler_facts (s := s) (t := t) (p := p) u
  unfold Gone
  rw [alive, life]
  exact Iff.rfl

theorem Sound.moveHandler (sound : s.Sound) (inside : (s.task t).handler ≠ .out) :
    (s.moveHandler t p).Sound := by
  have facts (u : Nat) := moveHandler_facts (s := s) (t := t) (p := p) u
  exact
    { alive := fun u within => by
        rw [(facts u).1, (facts u).2.2.2]
        by_cases same : u = t
        · subst same
          exact sound.alive u inside
        · rw [moveHandler_ne same] at within
          exact sound.alive u within
      pending := fun u => by
        rw [(facts u).1, (facts u).2.2.1]
        exact sound.pending u
      life := fun u => by
        rw [(facts u).2.1]
        exact sound.life u
      zero := (facts 0).1.trans sound.zero
      workers := ⟨sound.workers.1, fun u mem => (facts u).1.trans (sound.workers.2 u mem)⟩
      sweeper := fun busy =>
        ⟨(facts s.sweeper).1.trans (sound.sweeper busy).1, (sound.sweeper busy).2⟩
      flag := sound.flag }

/-- A handler moves on without having counted itself, or stays where it is. -/
theorem Asked.moveHandler (asked : s.Asked) (here : (s.moveHandler t p).Answering t)
    (kept : t ∈ s.answered → p = (s.task t).handler) : (s.moveHandler t p).Asked where
  handler u := by
    by_cases same : u = t
    · subst same
      exact here
    · have answering := asked.handler u
      unfold Answering at answering ⊢
      rw [moveHandler_ne same]
      exact answering
  answered u mem := by
    obtain ⟨counted, i, below, entry, sp⟩ := asked.answered u mem
    refine ⟨?_, i, below, entry, ?_⟩
    · by_cases same : u = t
      · subst same
        rw [moveHandler_self]
        exact (kept mem).trans counted
      · rw [moveHandler_ne same]
        exact counted
    · rw [(moveHandler_facts u).2.2.2]
      exact sp
  once := asked.once
  count := asked.count

/-- A handler records its stack pointer in its own task's entry. -/
theorem Asked.recordSp (asked : s.Asked) {g : BitVec 32} {i : Nat}
    (found : (s.task t).handler = .found g i) :
    Asked { s with stoppedSp := Function.update s.stoppedSp i (s.task t).frame } := by
  have own := asked.handler t
  simp only [Answering, found] at own
  have apart {u j : Nat} (other : u ≠ t) (entry : s.stopped j = u) : j ≠ i := by
    rintro rfl
    exact other (entry.symm.trans own.2.2)
  refine { asked with handler := fun u => ?_, answered := fun u mem => ?_ }
  · have here := asked.handler u
    by_cases same : u = t
    · subst same
      simp only [Answering, found]
      exact own
    · unfold Answering at here ⊢
      simp only at here ⊢
      split at here
      all_goals try exact here
      all_goals
        obtain ⟨current, below, entry, sp⟩ := here
        refine ⟨current, below, entry, ?_⟩
        rw [Function.update_of_ne (apart same entry)]
        exact sp
  · obtain ⟨counted, j, below, entry, sp⟩ := asked.answered u mem
    have other : u ≠ t := by
      rintro rfl
      exact absurd (found.symm.trans counted) (by simp)
    refine ⟨counted, j, below, entry, ?_⟩
    simp only
    rw [Function.update_of_ne (apart other entry)]
    exact sp

/-- A handler counts itself. -/
theorem Asked.countSelf (asked : s.Asked) {g : BitVec 32} {i : Nat}
    (counting : (s.task t).handler = .counting g i) :
    Asked
      ({ s with stoppedCount := s.stoppedCount + 1, answered := t :: s.answered }
        |>.moveHandler t (.counted g)) := by
  have own := asked.handler t
  simp only [Answering, counting] at own
  obtain ⟨rfl, below, entry, sp⟩ := own
  have new : t ∉ s.answered := fun mem =>
    absurd (counting.symm.trans (asked.answered t mem).1) (by simp)
  refine
    { handler := fun u => ?_, answered := fun u mem => ?_
      once := List.nodup_cons.mpr ⟨new, asked.once⟩
      count := congrArg Nat.succ asked.count }
  · by_cases same : u = t
    · subst same
      simp [Answering]
    · have here := asked.handler u
      unfold Answering at here ⊢
      rw [moveHandler_ne same]
      exact here
  · by_cases same : u = t
    · subst same
      rw [moveHandler_self]
      exact ⟨rfl, i, below, entry, sp⟩
    · rw [moveHandler_ne same]
      rcases List.mem_cons.mp mem with self | old
      · exact absurd self same
      · exact asked.answered u old

/-- What a handler's step in a stop that waits leaves as it was. -/
theorem Invariant.handler_asking (ok : s.Invariant) (asking : s.point.Asking)
    (inside : (s.task t).handler ≠ .out) {stoppedSp stoppedInterruptedSp : Nat → Nat}
    {stoppedCount : Nat} {answered : List Nat}
    (asked : Asked ({ s with stoppedSp, stoppedInterruptedSp, stoppedCount, answered }
      |>.moveHandler t p))
    (more : ∀ u ∈ s.answered, u ∈ answered)
    (sp : ∀ k, s.stopped k ∈ s.answered → stoppedSp k = s.stoppedSp k) :
    Invariant ({ s with stoppedSp, stoppedInterruptedSp, stoppedCount, answered }
      |>.moveHandler t p) := by
  have full := ok.full
  have recorded := ok.recorded
  refine .of_asking ?_ asking asked ?_ ok.sent ?_ ?_ ?_
  · exact { ok.sound.moveHandler (p := p) inside with }
  · intro k u below listed target
    exact (ok.cover k u below listed target).imp_left (moveHandler_gone (s := s) u).mpr
  · have keep (i : Nat)
        (absent : (s.task (s.stopped i)).handler = .out ∧
          (s.task (s.stopped i)).pending = false ∧ s.Gone (s.stopped i)) :
        ((s.moveHandler t p).task (s.stopped i)).handler = .out ∧
          ((s.moveHandler t p).task (s.stopped i)).pending = false ∧
            (s.moveHandler t p).Gone (s.stopped i) := by
      obtain ⟨out, quiet, gone⟩ := absent
      have other : s.stopped i ≠ t := by
        intro same
        rw [same] at out
        exact inside out
      rw [moveHandler_gone, moveHandler_ne other]
      exact ⟨out, quiet, gone⟩
    have absent := ok.absent
    unfold AbsentOk at absent ⊢
    change match s.point with
      | .unsent i _ | .drop i _ => _
      | _ => True
    split at absent
    · exact keep _ absent
    · exact keep _ absent
    · trivial
  · unfold AnsweredOk at full ⊢
    change match s.point with
      | .collect _ | .success | .decided true => _
      | _ => True
    split at full
    all_goals try exact fun k below some => (full k below some).imp_left (more _)
    · trivial
  · unfold StacksOk at recorded ⊢
    unfold AnsweredOk at full
    change match s.point with
      | .collect i => _
      | .success | .decided true => _
      | _ => True
    split at recorded
    · rename_i i point
      rw [point] at full
      intro k early below some
      change stoppedSp k ∈ s.worldStacks
      rw [sp k (full k below some).1]
      exact recorded k early below some
    · rename_i point
      rw [point] at full
      intro k below some
      change stoppedSp k ∈ s.worldStacks
      rw [sp k (full k below some).1]
      exact recorded k below some
    · rename_i point
      rw [point] at full
      intro k below some
      change stoppedSp k ∈ s.worldStacks
      rw [sp k (full k below some).1]
      exact recorded k below some
    · trivial

/-- A step that only moves the handler of a stop that waits. -/
theorem Invariant.moveHandler_asking (ok : s.Invariant) (asking : s.point.Asking)
    (inside : (s.task t).handler ≠ .out) (here : (s.moveHandler t p).Answering t)
    (kept : t ∈ s.answered → p = (s.task t).handler) : (s.moveHandler t p).Invariant :=
  ok.handler_asking asking inside ((ok.asked asking).moveHandler here kept) (fun _ => id)
    fun _ _ => rfl

theorem Invariant.moveHandler_building (ok : s.Invariant) (building : s.point.Building)
    (inside : (s.task t).handler ≠ .out) (calm : (s.moveHandler t p).Calm t) :
    (s.moveHandler t p).Invariant := by
  refine .of_building (ok.sound.moveHandler inside) building (fun u => ?_) ok.start ?_ ok.last
  · by_cases same : u = t
    · subst same
      exact calm
    · have here := ok.calm building u
      unfold Calm at here ⊢
      rw [moveHandler_ne same]
      exact here
  · intro k u below listed target
    exact (ok.cover k u below listed target).imp_left (moveHandler_gone u).mpr

/-- A handler's step while the table is made: it can only return. -/
theorem Invariant.handler_building (ok : s.Invariant) (building : s.point.Building)
    (taken : s.handlerStep t = some s') : s'.Invariant := by
  have calm := ok.calm building t
  have unset : s.stopping = false := by
    refine ok.sound.flag ?_
    unfold StopPoint.Unasked
    split
    all_goals trivial
  unfold handlerStep at taken
  unfold Calm at calm
  cases point : (s.task t).handler with
  | out =>
      simp [point] at taken
  | entered =>
      simp only [point] at taken
      obtain rfl := Option.some.inj taken
      refine ok.moveHandler_building building (by simp [point]) ?_
      simp [Calm]
      rfl
  | loaded g =>
      simp only [point] at taken
      obtain rfl := Option.some.inj taken
      refine ok.moveHandler_building building (by simp [point]) ?_
      simp [Calm, unset]
  | counted g =>
      simp only [point] at taken
      obtain rfl := Option.some.inj taken
      refine ok.moveHandler_building building (by simp [point]) ?_
      unfold Calm
      rw [moveHandler_self]
      simp only
      split_ifs <;> trivial
  | scanning g i | comparing g i | checking g i | found g i | interrupted g i | counting g i =>
      rw [point] at calm
      exact calm.elim

/-- A handler's step while a stop waits. -/
theorem Invariant.handler_step_asking (ok : s.Invariant) (asking : s.point.Asking)
    (taken : s.handlerStep t = some s') : s'.Invariant := by
  have asked := ok.asked asking
  have own := asked.handler t
  have uncounted (not : ∀ g, (s.task t).handler ≠ .counted g) {p : HandlerPoint}
      (mem : t ∈ s.answered) : p = (s.task t).handler :=
    absurd (asked.answered t mem).1 (not _)
  unfold handlerStep at taken
  unfold Answering at own
  cases point : (s.task t).handler with
  | out =>
      simp [point] at taken
  | entered =>
      simp only [point] at taken
      obtain rfl := Option.some.inj taken
      refine ok.moveHandler_asking asking (by simp [point]) ?_ (uncounted (by simp [point]))
      simp [Answering]
      rfl
  | loaded g =>
      simp only [point] at taken own
      obtain rfl := Option.some.inj taken
      refine ok.moveHandler_asking asking (by simp [point]) ?_ (uncounted (by simp [point]))
      unfold Answering
      rw [moveHandler_self]
      simp only
      split_ifs
      · exact ⟨own, Nat.zero_le _⟩
      · trivial
  | scanning g i =>
      simp only [point] at taken own
      obtain rfl := Option.some.inj taken
      refine ok.moveHandler_asking asking (by simp [point]) ?_ (uncounted (by simp [point]))
      unfold Answering
      rw [moveHandler_self]
      simp only
      split_ifs with more
      · exact ⟨own.1, more⟩
      · exact ⟨own.1, own.2, fun below => absurd below more⟩
  | comparing g i =>
      simp only [point] at taken own
      obtain rfl := Option.some.inj taken
      refine ok.moveHandler_asking asking (by simp [point]) ?_ (uncounted (by simp [point]))
      unfold Answering
      rw [moveHandler_self]
      simp only
      split_ifs with self
      · exact ⟨own.1, own.2.le, fun _ => self⟩
      · exact ⟨own.1, own.2⟩
  | checking g i =>
      simp only [point] at taken own
      obtain rfl := Option.some.inj taken
      refine ok.moveHandler_asking asking (by simp [point]) ?_ (uncounted (by simp [point]))
      unfold Answering
      rw [moveHandler_self]
      simp only
      split_ifs with none
      · trivial
      · have below : i < s.stopTargets := by
          have := own.2.1
          omega
        exact ⟨own.1, below, own.2.2 below⟩
  | found g i =>
      simp only [point] at taken own
      obtain rfl := Option.some.inj taken
      have recorded := asked.recordSp point
      refine ok.handler_asking asking (by simp [point]) (recorded.moveHandler ?_ ?_)
        (fun _ => id) fun k mem => ?_
      · simp only [Answering, moveHandler_self]
        exact ⟨own.1, own.2.1, own.2.2, Function.update_self _ _ _⟩
      · exact uncounted (by simp [point])
      · refine Function.update_of_ne ?_ _ _
        rintro rfl
        rw [own.2.2] at mem
        exact absurd (point.symm.trans (asked.answered t mem).1) (by simp)
  | interrupted g i =>
      simp only [point] at taken own
      obtain rfl := Option.some.inj taken
      refine ok.handler_asking asking (by simp [point]) ?_ (fun _ => id) fun k mem => rfl
      have same : Asked { s with
          stoppedInterruptedSp := Function.update s.stoppedInterruptedSp i (s.task t).context } :=
        { asked with }
      refine same.moveHandler ?_ (uncounted (by simp [point]))
      simp only [Answering, moveHandler_self]
      exact own
  | counting g i =>
      simp only [point] at taken
      obtain rfl := Option.some.inj taken
      exact ok.handler_asking asking (by simp [point]) (asked.countSelf point)
        (fun u mem => List.mem_cons_of_mem _ mem) fun _ _ => rfl
  | counted g =>
      simp only [point] at taken
      obtain rfl := Option.some.inj taken
      refine ok.moveHandler_asking asking (by simp [point]) ?_ fun mem => ?_
      · unfold Answering
        rw [moveHandler_self]
        simp only
        split_ifs <;> trivial
      · have current := (asked.answered t mem).1
        rw [point] at current ⊢
        rw [if_pos (HandlerPoint.counted.inj current).symm]

/-- A handler's step at any point of a sweep. -/
theorem Invariant.handler (ok : s.Invariant) (taken : s.handlerStep t = some s') :
    s'.Invariant := by
  by_cases building : s.point.Building
  · exact ok.handler_building building taken
  by_cases asking : s.point.Asking
  · exact ok.handler_step_asking asking taken
  have inside : (s.task t).handler ≠ .out := by
    intro out
    simp [handlerStep, out] at taken
  unfold handlerStep at taken
  cases point : (s.task t).handler with
  | out => exact absurd point inside
  | _ =>
      simp only [point] at taken
      obtain rfl := Option.some.inj taken
      exact .of_sound { ok.sound.moveHandler inside with } building asking

end Handler

end Process

end WeaveC.Sweep
