import WeaveC.Locks.Entries
import Mathlib.Data.List.Pairwise

/-!
# The order of the runtime's locks

One order for every path: the sweep's lock, the list of caches, the arena's
lock, the spares', the regions' one after another, the huge blocks', the
internal ranges' and the workers' mutex.  What a thread holds decides what it
may do next, and every function keeps to it.
-/

namespace WeaveC.Locks

open WeaveC.Library Program
open Code.Checks (nil cons single own)

def Lock.rank : Lock → Nat
  | .sweepLock => 0
  | .cacheListLock => 1
  | .initLock => 2
  | .spareLock => 3
  | .regionLock region => 4 + region
  | .hugeLock => 4 + WeavecRtRegionCount
  | .internalLock => 5 + WeavecRtRegionCount
  | .workLock => 6 + WeavecRtRegionCount

/-- Where a thread is in the stop, the fork or a worker's rounds. -/
inductive Mode where
  | plain
  /-- Between `stopThreads` and `resumeThreads` -/
  | stopping
  /-- In the child, before `weavecRtSweepForkChild` -/
  | child
  /-- A worker whose thread id is not there yet -/
  | starting
  /-- A worker between two rounds -/
  | idle
  | working
deriving DecidableEq

def Mode.Worker (m : Mode) : Prop := m = .starting ∨ m = .idle ∨ m = .working

instance (m : Mode) : Decidable m.Worker := inferInstanceAs (Decidable (_ ∨ _ ∨ _))

/-- The locks a thread holds, the last one first, and where it is. -/
structure Hold where
  locks : List Lock
  mode : Mode

namespace Hold

/-- The locks a sweep holds while the world stands still. -/
def world : List Lock :=
  .hugeLock :: ((List.finRange WeavecRtRegionCount).reverse.map Lock.regionLock ++
    [.spareLock, .initLock])

def MayLock (h : Hold) (l : Lock) : Prop :=
  (∀ k ∈ h.locks, k.rank < l.rank) ∧
  match h.mode with
  | .plain => l ≠ .workLock ∧ (l = .internalLock →
      .sweepLock ∈ h.locks ∨ .initLock ∈ h.locks ∨ .hugeLock ∈ h.locks)
  | .stopping => l = .internalLock ∨ l = .workLock
  | .child => ∃ region, l = .regionLock region
  | .starting => False
  | .idle | .working => l = .workLock

def MayUnlock (h : Hold) (l : Lock) : Prop :=
  h.locks.head? = some l ∧
  match h.mode with
  | .stopping => l = .internalLock ∨ l = .workLock
  | .child => l ≠ .sweepLock
  | _ => True

def Allowed (h : Hold) : Action → Prop
  | .lock l | .tryLock l => h.MayLock l
  | .unlock l => h.MayUnlock l
  | .stopThreads => h.mode = .plain ∧ h.locks = world ++ [.sweepLock]
  | .resumeThreads => h.mode = .stopping ∧ h.locks = world ++ [.sweepLock]
  | .createWorker | .awaitWorker => h.mode = .plain ∧ h.locks = [.sweepLock]
  | .storeThreadId => h.mode = .starting
  | .startRound => h.mode = .stopping
  | .awaitDone => h.mode = .stopping ∧ h.locks = world ++ [.sweepLock]
  | .awaitGo => h.mode = .idle ∧ h.locks = []
  | .restoreSignals => h.locks = [.sweepLock]
  | .seeRound => h.mode = .idle
  | .finishRound => h.mode = .working
  | .enterChild => h.mode = .plain ∧ h.locks = world ++ [.cacheListLock, .sweepLock]
  | .initWorkLock => h.mode = .child
  | _ => True

def after (h : Hold) : Action → Hold
  | .lock l | .tryLock l => { h with locks := l :: h.locks }
  | .unlock l => { h with locks := h.locks.erase l }
  | .stopThreads => { h with mode := .stopping }
  | .resumeThreads | .initWorkLock => { h with mode := .plain }
  | .storeThreadId | .finishRound => { h with mode := .idle }
  | .seeRound => { h with mode := .working }
  | .enterChild => { h with mode := .child }
  | _ => h

def discipline : Discipline Hold Action where
  Allowed := Allowed
  after := after
  Dead _ := False
  Covers := Eq
  refl := Eq.refl
  trans := Eq.trans
  allowed same := by
    rintro may
    rwa [same]
  after_covers a same := congrArg (after · a) same
  dead _ := id

/-- What is held outside the runtime: nothing. -/
def nothing : Hold := ⟨[], .plain⟩

/-- Where the recursive functions begin and end. -/
def spec : Procedure → Hold → Hold → Prop
  | .free _, h, h' => h = nothing ∧ h' = nothing
  | .markRounds, h, _ => h = ⟨[.workLock], .idle⟩

end Hold

/-! ## Every function keeps to the order -/

def Keeps (h : Hold) (c : Program) (h' : Hold) : Prop :=
  Code.Checks Hold.discipline Hold.spec h c h'

namespace Keeps

variable {h h' : Hold} {c d : Program} {l : Lock}

theorem act {a : Action} (allowed : h.Allowed a) : Keeps h (.act a) (h.after a) :=
  Code.Checks.act (D := Hold.discipline) allowed

theorem maybe (kept : Keeps h c h) : Keeps h (maybe c) h := .either kept .skip

theorem branch {q : Query} (yes : Keeps h c h') (no : Keeps h d h') :
    Keeps h (branch q c d) h' :=
  .either (cons (own trivial rfl) (single yes)) (cons (own trivial rfl) (single no))

theorem onlyIf {q : Query} (kept : Keeps h c h) : Keeps h (onlyIf q c) h := branch kept .skip

theorem take (may : h.MayLock l) : Keeps h (take l) { h with locks := l :: h.locks } :=
  cons (onlyIf (own trivial rfl)) (single (act may))

theorem unlock {locks : List Lock} {mode : Mode} (may : (Hold.mk (l :: locks) mode).MayUnlock l) :
    Keeps ⟨l :: locks, mode⟩ (weavecRtUnlock l) ⟨locks, mode⟩ := by
  have kept := act (a := .unlock l) may
  change Keeps _ _ ⟨(l :: locks).erase l, mode⟩ at kept
  rwa [List.erase_cons_head] at kept

theorem give {locks : List Lock} {mode : Mode} (may : (Hold.mk (l :: locks) mode).MayUnlock l) :
    Keeps ⟨l :: locks, mode⟩ (give l) ⟨locks, mode⟩ :=
  branch (cons (unlock may) (single (own trivial rfl))) (unlock may)

/-- A lock taken and given back at once. -/
theorem takeGive (may : h.MayLock l) (back : (Hold.mk (l :: h.locks) h.mode).MayUnlock l) :
    Keeps h (.list [Locks.take l, Locks.give l]) h :=
  cons (take may) (single (give back))

theorem lockUnlock (may : h.MayLock l) (back : (Hold.mk (l :: h.locks) h.mode).MayUnlock l) :
    Keeps h (.list [weavecRtLock l, weavecRtUnlock l]) h :=
  cons (act may) (single (unlock back))

end Keeps

theorem Hold.nothing_mayLock {l : Lock} (first : l ≠ .workLock) (second : l ≠ .internalLock) :
    nothing.MayLock l :=
  ⟨nofun, first, fun internal => absurd internal second⟩

open Keeps

variable {h : Hold}

theorem keeps_weavecRtInternal (may : h.MayLock .internalLock) : Keeps h weavecRtInternal h := by
  refine lockUnlock may ⟨rfl, ?_⟩
  obtain ⟨locks, mode⟩ := h
  cases mode with
  | stopping => exact .inl rfl
  | child => exact nofun
  | plain | starting | idle | working => trivial

theorem Hold.mayLock_internalLock {locks : List Lock} (below : ∀ k ∈ locks, k.rank < 5 + 160)
    (guard : .sweepLock ∈ locks ∨ .initLock ∈ locks ∨ .hugeLock ∈ locks) :
    (Hold.mk locks .plain).MayLock .internalLock :=
  ⟨below, nofun, fun _ => guard⟩

theorem keeps_weavecRtInitialize : Keeps Hold.nothing weavecRtInitialize Hold.nothing := by
  have internal : Keeps ⟨[.initLock], .plain⟩ weavecRtInternal ⟨[.initLock], .plain⟩ :=
    keeps_weavecRtInternal (Hold.mayLock_internalLock (by decide) (.inr (.inl (by decide))))
  have reserved : Keeps ⟨[.initLock], .plain⟩ reserve ⟨[.initLock], .plain⟩ :=
    maybe (cons internal (single (maybe (own trivial rfl))))
  have both : Keeps ⟨[.initLock], .plain⟩
      (.maybe (.list [reserveShadow, reserve, maybe reserve])) ⟨[.initLock], .plain⟩ :=
    maybe (cons (maybe internal) (cons reserved (single (maybe reserved))))
  refine branch .skip (cons (act (Hold.nothing_mayLock nofun nofun)) (cons both (single ?_)))
  exact unlock ⟨rfl, trivial⟩

/-! ### The caches -/

theorem keeps_popRegion (region : Region) : Keeps Hold.nothing (popRegion region) Hold.nothing :=
  takeGive (Hold.nothing_mayLock nofun nofun) ⟨rfl, trivial⟩

theorem keeps_drainCache (may : ∀ region, h.MayLock (.regionLock region))
    (mode : h.mode = .plain ∨ h.mode = .child) : Keeps h drainCache h := by
  have run (region : Region) :
      Keeps h (.list [take (.regionLock region), give (.regionLock region)]) h := by
    refine takeGive (may region) ⟨rfl, ?_⟩
    obtain ⟨locks, mode⟩ := h
    rcases mode with rfl | rfl
    · trivial
    · exact nofun
  have slots : Keeps h (.list [.act .openArrays,
      .loop (.any fun region => .list [take (.regionLock region), give (.regionLock region)]),
      .act .closeArrays]) h :=
    cons (own trivial rfl) (cons (.loop (.any run)) (single (own trivial rfl)))
  exact .loop (cons slots (single slots))

theorem keeps_flushReleases : Keeps Hold.nothing flushReleases Hold.nothing :=
  cons (own trivial rfl) (cons (.loop (.any keeps_popRegion)) (single (own trivial rfl)))

theorem keeps_drainCache_nothing : Keeps Hold.nothing drainCache Hold.nothing :=
  keeps_drainCache (fun _ => Hold.nothing_mayLock nofun nofun) (.inl rfl)

theorem keeps_cacheList :
    Keeps Hold.nothing (.list [take .cacheListLock, give .cacheListLock]) Hold.nothing :=
  takeGive (Hold.nothing_mayLock nofun nofun) ⟨rfl, trivial⟩

theorem keeps_dropCache : Keeps Hold.nothing dropCache Hold.nothing :=
  cons (own trivial rfl) (single (maybe (cons keeps_drainCache_nothing keeps_cacheList)))

/-! ### The sweep -/

theorem Hold.world_append (locks : List Lock) :
    world ++ locks = .hugeLock :: ((List.finRange WeavecRtRegionCount).reverse.map Lock.regionLock ++
      .spareLock :: .initLock :: locks) := by
  simp only [world, List.cons_append, List.append_assoc, List.nil_append]

theorem Hold.rank_world {k : Lock} (mem : k ∈ world) :
    Lock.initLock.rank ≤ k.rank ∧ k.rank < Lock.internalLock.rank := by
  rcases List.mem_cons.mp mem with rfl | mem
  · decide
  rcases List.mem_append.mp mem with mem | mem
  · obtain ⟨region, -, rfl⟩ := List.mem_map.mp mem
    have := region.isLt
    simp only [Lock.rank]
    omega
  · rcases List.mem_cons.mp mem with rfl | mem
    · decide
    · obtain rfl := List.mem_singleton.mp mem
      decide

theorem keeps_lockRegions {regions : List Region} {locks : List Lock}
    (below : ∀ region ∈ regions, ∀ k ∈ locks, k.rank < (Lock.regionLock region).rank)
    (sorted : regions.Pairwise (· < ·)) :
    Keeps ⟨locks, .plain⟩ (.list (regions.map fun i => weavecRtLock (.regionLock i)))
      ⟨regions.reverse.map Lock.regionLock ++ locks, .plain⟩ := by
  induction regions generalizing locks with
  | nil => exact nil
  | cons region regions inductionHypothesis =>
    obtain ⟨first, others⟩ := List.pairwise_cons.mp sorted
    rw [List.reverse_cons, List.map_append, List.append_assoc]
    refine cons (act ⟨below region List.mem_cons_self, nofun, nofun⟩) (inductionHypothesis ?_ others)
    intro other mem k held
    rcases List.mem_cons.mp held with rfl | held
    · exact Nat.add_lt_add_left (first other mem) 4
    · exact below other (List.mem_cons_of_mem region mem) k held

theorem keeps_weavecRtLockAll {locks : List Lock}
    (below : ∀ k ∈ locks, k.rank < Lock.initLock.rank) :
    Keeps ⟨locks, .plain⟩ weavecRtLockAll ⟨Hold.world ++ locks, .plain⟩ := by
  have spare : ∀ k ∈ .initLock :: locks, k.rank < Lock.spareLock.rank := by
    intro k mem
    rcases List.mem_cons.mp mem with rfl | mem
    · decide
    · exact (below k mem).trans (by decide)
  have region : ∀ i ∈ List.finRange WeavecRtRegionCount, ∀ k ∈ .spareLock :: .initLock :: locks,
      k.rank < (Lock.regionLock i).rank := by
    intro i _ k mem
    rcases List.mem_cons.mp mem with rfl | mem
    · exact Nat.lt_add_right _ (by decide)
    · exact (spare k mem).trans (Nat.lt_add_right _ (by decide))
  have huge : ∀ k ∈ (List.finRange WeavecRtRegionCount).reverse.map Lock.regionLock ++
      .spareLock :: .initLock :: locks, k.rank < Lock.hugeLock.rank := by
    intro k mem
    rcases List.mem_append.mp mem with mem | mem
    · obtain ⟨i, -, rfl⟩ := List.mem_map.mp mem
      exact Nat.add_lt_add_left i.isLt 4
    · exact (region ⟨0, by decide⟩ (List.mem_finRange _) k mem).trans (by decide)
  rw [Hold.world_append]
  exact cons (act ⟨below, nofun, nofun⟩) (cons (act ⟨spare, nofun, nofun⟩)
    (cons (keeps_lockRegions region (List.pairwise_lt_finRange _))
      (single (act ⟨huge, nofun, nofun⟩))))

theorem keeps_unlockRegions {regions : List Region} {locks : List Lock} {mode : Mode}
    (mayUnlock : mode = .plain ∨ mode = .child) :
    Keeps ⟨regions.map Lock.regionLock ++ locks, mode⟩
      (.list (regions.map fun i => weavecRtUnlock (.regionLock i))) ⟨locks, mode⟩ := by
  induction regions with
  | nil => exact nil
  | cons region regions inductionHypothesis =>
    refine cons (unlock ⟨rfl, ?_⟩) inductionHypothesis
    rcases mayUnlock with rfl | rfl
    · trivial
    · exact nofun

theorem keeps_weavecRtUnlockAll {locks : List Lock} {mode : Mode}
    (mayUnlock : mode = .plain ∨ mode = .child) :
    Keeps ⟨Hold.world ++ locks, mode⟩ weavecRtUnlockAll ⟨locks, mode⟩ := by
  rw [Hold.world_append]
  refine cons (unlock ⟨rfl, ?_⟩) (cons (keeps_unlockRegions mayUnlock)
    (cons (unlock ⟨rfl, ?_⟩) (single (unlock ⟨rfl, ?_⟩))))
  all_goals
    rcases mayUnlock with rfl | rfl
    · trivial
    · exact nofun

/-- What the sweeping thread holds while the world stands still. -/
def Hold.stopped : Hold := ⟨world ++ [.sweepLock], .stopping⟩

theorem Hold.stopped_mayLock {l : Lock} (may : l = .internalLock ∨ l = .workLock) :
    stopped.MayLock l := by
  refine ⟨?_, may⟩
  intro k mem
  have low : k.rank < Lock.internalLock.rank := by
    rcases List.mem_append.mp mem with mem | mem
    · exact (rank_world mem).2
    · obtain rfl := List.mem_singleton.mp mem
      decide
  rcases may with rfl | rfl
  · exact low
  · exact low.trans (by decide)

theorem keeps_runWork : Keeps Hold.stopped runWork Hold.stopped := by
  have locked : Keeps Hold.stopped (weavecRtLock .workLock) ⟨_ :: _, .stopping⟩ :=
    act (Hold.stopped_mayLock (.inr rfl))
  have unlocked : Keeps ⟨.workLock :: (Hold.world ++ [.sweepLock]), .stopping⟩
      (weavecRtUnlock .workLock) Hold.stopped :=
    unlock ⟨rfl, .inr rfl⟩
  have asleep : Keeps Hold.stopped (.act .awaitDone) Hold.stopped := own ⟨rfl, rfl⟩ rfl
  exact cons locked (cons (own rfl rfl) (cons unlocked (cons locked
    (cons (.loop (cons unlocked (cons asleep (single locked)))) (single unlocked)))))

theorem keeps_stopTheWorld : Keeps ⟨[.sweepLock], .plain⟩ stopTheWorld ⟨[.sweepLock], .plain⟩ := by
  have below : ∀ k ∈ [Lock.sweepLock], k.rank < Lock.initLock.rank := by decide
  have internal : Keeps Hold.stopped weavecRtInternal Hold.stopped :=
    keeps_weavecRtInternal (Hold.stopped_mayLock (.inl rfl))
  have scanned : Keeps Hold.stopped scanMappings Hold.stopped :=
    .loop (cons internal (single (maybe internal)))
  have marked : Keeps Hold.stopped (.maybe (.list [weavecRtPrepareMarks,
      Program.maybe (.list [scanMappings, Program.maybe runWork])])) Hold.stopped :=
    maybe (cons (.loop internal) (single (maybe (cons scanned (single (maybe keeps_runWork))))))
  have stop : Keeps ⟨Hold.world ++ [.sweepLock], .plain⟩ (.act .stopThreads) Hold.stopped :=
    act ⟨rfl, rfl⟩
  have resume : Keeps Hold.stopped (.act .resumeThreads) ⟨Hold.world ++ [.sweepLock], .plain⟩ :=
    act ⟨rfl, rfl⟩
  exact cons (keeps_weavecRtLockAll below) (cons stop (cons marked (cons resume
    (single (keeps_weavecRtUnlockAll (.inl rfl))))))

theorem keeps_sweepInternal :
    Keeps ⟨[.sweepLock], .plain⟩ weavecRtInternal ⟨[.sweepLock], .plain⟩ :=
  keeps_weavecRtInternal (Hold.mayLock_internalLock (by decide) (.inl (by decide)))

theorem keeps_startWorkers : Keeps ⟨[.sweepLock], .plain⟩ startWorkers ⟨[.sweepLock], .plain⟩ :=
  .loop (cons (maybe keeps_sweepInternal) (single
    (maybe (cons (own ⟨rfl, rfl⟩ rfl) (single (own ⟨rfl, rfl⟩ rfl))))))

theorem keeps_weavecRtSweep : Keeps Hold.nothing weavecRtSweep Hold.nothing := by
  have swept : Keeps ⟨[.sweepLock], .plain⟩
      (.maybe (.list [.act .blockSignals, Program.maybe startWorkers, stopTheWorld,
        .act .restoreSignals])) ⟨[.sweepLock], .plain⟩ :=
    maybe (cons (own trivial rfl) (cons (maybe keeps_startWorkers) (cons keeps_stopTheWorld
      (single (own rfl rfl)))))
  refine branch .skip (cons (onlyIf keeps_drainCache_nothing) (single (maybe ?_)))
  refine cons (act (a := .tryLock .sweepLock) (Hold.nothing_mayLock nofun nofun))
    (cons (maybe (cons keeps_sweepInternal (single (maybe keeps_sweepInternal))))
      (cons swept (single ?_)))
  exact unlock ⟨rfl, trivial⟩

theorem keeps_popClass : Keeps Hold.nothing popClass Hold.nothing := by
  have spare : Keeps Hold.nothing takeSpare Hold.nothing :=
    takeGive (Hold.nothing_mayLock nofun nofun) ⟨rfl, trivial⟩
  exact .loop (cons (.loop (.any keeps_popRegion)) (cons (maybe keeps_weavecRtSweep)
    (single (maybe spare))))

/-! ### The entry points -/

theorem keeps_cacheFor {cache none : Program} (with_cache : Keeps Hold.nothing cache Hold.nothing)
    (without : Keeps Hold.nothing none Hold.nothing) :
    Keeps Hold.nothing (cacheFor cache none) Hold.nothing := by
  have outermost : Keeps Hold.nothing (.branch .nested none cache) Hold.nothing :=
    branch without with_cache
  have made : Keeps Hold.nothing (.list [.act .setCache, take .cacheListLock, give .cacheListLock,
      Program.branch .nested none cache]) Hold.nothing :=
    cons (own trivial rfl) (cons (Keeps.take (Hold.nothing_mayLock nofun nofun))
      (cons (Keeps.give ⟨rfl, trivial⟩) (single outermost)))
  exact .either (branch outermost (branch (.either made without) without)) without

theorem keeps_hugeAlloc : Keeps Hold.nothing hugeAlloc Hold.nothing := by
  have internal : Keeps ⟨[.hugeLock], .plain⟩ weavecRtInternal ⟨[.hugeLock], .plain⟩ :=
    keeps_weavecRtInternal (Hold.mayLock_internalLock (by decide) (.inr (.inr (by decide))))
  have given : Keeps ⟨[.hugeLock], .plain⟩ (Locks.give .hugeLock) Hold.nothing :=
    Keeps.give ⟨rfl, trivial⟩
  exact maybe (cons (Keeps.take (Hold.nothing_mayLock nofun nofun)) (single (.either given
    (cons (maybe (cons internal (single (maybe internal)))) (single given)))))

theorem keeps_hugeFind : Keeps Hold.nothing hugeFind Hold.nothing :=
  maybe (takeGive (Hold.nothing_mayLock nofun nofun) ⟨rfl, trivial⟩)

theorem keeps_allocate : Keeps Hold.nothing allocate Hold.nothing := by
  have cached : Keeps Hold.nothing cachedAlloc Hold.nothing :=
    cons (own trivial rfl) (cons (maybe keeps_popClass) (single (own trivial rfl)))
  exact cons keeps_weavecRtInitialize (single (maybe (cons
    (maybe (keeps_cacheFor cached keeps_popClass)) (single (maybe keeps_hugeAlloc)))))

theorem keeps_release (p : Pointer) : Keeps Hold.nothing (release p) Hold.nothing := by
  have retired : Keeps Hold.nothing retire Hold.nothing :=
    cons (.any keeps_popRegion) (single (maybe keeps_weavecRtSweep))
  have cached : Keeps Hold.nothing cachedRelease Hold.nothing :=
    cons (own trivial rfl) (cons (own trivial rfl) (single
      (maybe (cons keeps_flushReleases (single (maybe keeps_weavecRtSweep))))))
  have huge : Keeps Hold.nothing (hugeFree p) Hold.nothing :=
    cons (Keeps.take (Hold.nothing_mayLock nofun nofun)) (cons (own trivial rfl)
      (single (Keeps.give ⟨rfl, trivial⟩)))
  exact .either
    (maybe (cons (own trivial rfl) (single (keeps_cacheFor cached retired))))
    (.either (cons huge (single (maybe keeps_weavecRtSweep)))
      (cons keeps_hugeFind (cons keeps_hugeFind (single (maybe (own trivial rfl))))))

theorem keeps_counted {work : Program} (kept : Keeps Hold.nothing work Hold.nothing) :
    Keeps Hold.nothing (counted work) Hold.nothing := by
  have freed : Keeps Hold.nothing (.call (.free .deferred)) Hold.nothing := .call ⟨rfl, rfl⟩
  have drained : Keeps Hold.nothing drainDeferred Hold.nothing :=
    cons (.loop (cons (own trivial rfl) (cons (own trivial rfl) (cons (own trivial rfl)
      (cons (own trivial rfl) (single freed)))))) (single (own trivial rfl))
  exact cons (own trivial rfl) (cons kept (cons (own trivial rfl) (single (branch .skip drained))))

theorem keeps_weavecRtAlloc : Keeps Hold.nothing weavecRtAlloc Hold.nothing :=
  branch (branch .skip (keeps_counted keeps_allocate)) keeps_allocate

theorem keeps_weavecRtFree (p : Pointer) : Keeps Hold.nothing (weavecRtFree p) Hold.nothing :=
  branch (branch (onlyIf (own trivial rfl)) (keeps_counted (keeps_release p))) (keeps_release p)

theorem keeps_weavecRtRealloc : Keeps Hold.nothing weavecRtRealloc Hold.nothing := by
  have freed : Keeps Hold.nothing (.call (.free .argument)) Hold.nothing := .call ⟨rfl, rfl⟩
  exact .either keeps_weavecRtAlloc (cons (maybe keeps_hugeFind) (single (.either
    (maybe (cons keeps_hugeFind (single (maybe (own trivial rfl)))))
    (cons keeps_weavecRtAlloc (single (maybe freed))))))

/-! ### fork -/

theorem keeps_forkProcess : Keeps Hold.nothing forkProcess Hold.nothing := by
  have below : ∀ k ∈ [Lock.cacheListLock, Lock.sweepLock], k.rank < Lock.initLock.rank := by decide
  have listed : Keeps ⟨[.sweepLock], .plain⟩ (weavecRtLock .cacheListLock)
      ⟨[.cacheListLock, .sweepLock], .plain⟩ :=
    act ⟨by decide, nofun, nofun⟩
  have prepared : Keeps Hold.nothing forkPrepare
      ⟨Hold.world ++ [.cacheListLock, .sweepLock], .plain⟩ :=
    cons (act (Hold.nothing_mayLock nofun nofun)) (cons listed
      (single (keeps_weavecRtLockAll below)))
  have parent : Keeps ⟨Hold.world ++ [.cacheListLock, .sweepLock], .plain⟩ forkParent
      Hold.nothing :=
    cons (keeps_weavecRtUnlockAll (.inl rfl)) (cons (unlock ⟨rfl, trivial⟩)
      (single (unlock ⟨rfl, trivial⟩)))
  have entered : Keeps ⟨Hold.world ++ [.cacheListLock, .sweepLock], .plain⟩ (.act .enterChild)
      ⟨Hold.world ++ [.cacheListLock, .sweepLock], .child⟩ :=
    act ⟨rfl, rfl⟩
  have drained : Keeps ⟨[.cacheListLock, .sweepLock], .child⟩ (.loop drainCache)
      ⟨[.cacheListLock, .sweepLock], .child⟩ := by
    refine .loop (keeps_drainCache (fun region => ⟨?_, region, rfl⟩) (.inr rfl))
    intro k mem
    exact Nat.lt_add_right _ ((show ∀ k ∈ [Lock.cacheListLock, Lock.sweepLock], k.rank < 4
      by decide) k mem)
  have reset : Keeps ⟨[.sweepLock], .child⟩ (.act .initWorkLock) ⟨[.sweepLock], .plain⟩ := act rfl
  have child : Keeps ⟨Hold.world ++ [.cacheListLock, .sweepLock], .child⟩ forkChild
      Hold.nothing :=
    cons (keeps_weavecRtUnlockAll (.inr rfl)) (cons drained (cons (unlock ⟨rfl, nofun⟩)
      (cons reset (single (unlock ⟨rfl, trivial⟩)))))
  exact cons prepared (single (.either parent (cons entered (single child))))

/-! ### The workers -/

theorem keeps_markRounds : Keeps ⟨[.workLock], .idle⟩ markRounds h := by
  have unlocked (m : Mode) (mode : m = .idle ∨ m = .working) :
      Keeps ⟨[.workLock], m⟩ (weavecRtUnlock .workLock) ⟨[], m⟩ := by
    rcases mode with rfl | rfl <;> exact unlock ⟨rfl, trivial⟩
  have locked (m : Mode) (mode : m = .idle ∨ m = .working) :
      Keeps ⟨[], m⟩ (weavecRtLock .workLock) ⟨[.workLock], m⟩ := by
    rcases mode with rfl | rfl <;> exact act ⟨nofun, rfl⟩
  have asleep : Keeps ⟨[], .idle⟩ (.act .awaitGo) ⟨[], .idle⟩ := own ⟨rfl, rfl⟩ rfl
  have seen : Keeps ⟨[.workLock], .idle⟩ (.act .seeRound) ⟨[.workLock], .working⟩ := act rfl
  have finished : Keeps ⟨[.workLock], .working⟩ (.act .finishRound) ⟨[.workLock], .idle⟩ := act rfl
  exact cons (.loop (cons (unlocked _ (.inl rfl)) (cons asleep (single (locked _ (.inl rfl))))))
    (cons seen (cons (unlocked _ (.inr rfl)) (cons (locked _ (.inr rfl)) (cons finished
      (single (.call rfl))))))

theorem keeps_markWorker : Keeps ⟨[], .starting⟩ markWorker h := by
  have stored : Keeps ⟨[], .starting⟩ (.act .storeThreadId) ⟨[], .idle⟩ := act rfl
  have locked : Keeps ⟨[], .idle⟩ (weavecRtLock .workLock) ⟨[.workLock], .idle⟩ :=
    act ⟨nofun, rfl⟩
  exact cons stored (cons locked (single (.call rfl)))

/-! ### The order -/

theorem keeps_body (f : Procedure) (h h' : Hold) (meets : Hold.spec f h h') :
    Keeps h f.body h' := by
  cases f with
  | free p =>
    obtain ⟨rfl, rfl⟩ := meets
    exact keeps_weavecRtFree p
  | markRounds =>
    obtain rfl := meets
    exact keeps_markRounds

/-- Every way into the runtime keeps to the order, and leaves nothing held. -/
theorem keeps_entry (e : Entry) : Keeps Hold.nothing e.program Hold.nothing := by
  cases e with
  | alloc => exact keeps_weavecRtAlloc
  | free => exact maybe (.call ⟨rfl, rfl⟩)
  | realloc => exact keeps_weavecRtRealloc
  | size => exact cons (maybe keeps_hugeFind) (single (maybe keeps_hugeFind))
  | heapObjectAt => exact keeps_hugeFind
  | initializeEarly => exact keeps_weavecRtInitialize
  | dropCache => exact keeps_dropCache
  | fork => exact keeps_forkProcess

end WeaveC.Locks
