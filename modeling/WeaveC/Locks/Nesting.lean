import WeaveC.Locks.Signals

/-!
# What a nested call does

Beside the order of the locks: a call takes only locks that no call below it
holds, opens the cache's arrays only where no call below has them open, and
keeps the counters no lower than what it holds.
-/

namespace WeaveC.Locks

open WeaveC.Library Program
open Code.Checks (nil cons single own)

namespace Call

/-- The locks a call holds that its thread's counter says. -/
def quick (c : Call) : Nat :=
  (c.hold.locks.filter fun l => l ≠ .sweepLock ∧ l ≠ .internalLock).length

def MayLock (B : Below) (c : Call) (l : Lock) : Prop :=
  l ∉ B.held ∧ (c.blocked = true ∨
    (l = .internalLock ∨ c.quick < c.counted) ∧ (c.depth = 0 → l = .hugeLock))

def Allowed (B : Below) (c : Call) : Action → Prop
  | .lock l => c.MayLock B l
  | .tryLock l => l = .sweepLock ∧ c.depth ≠ 0
  | .locksDown => c.quick < c.counted
  | .depthDown => c.depth ≠ 0 ∧ c.hold.locks = [] ∧ c.opens = 0 ∧ c.blocked = false
  | .openArrays => B.opens = 0 ∧ c.depth ≠ 0
  | .blockSignals => c.depth ≠ 0
  | .restoreSignals => c.quick ≤ c.counted ∧ c.depth ≠ 0
  | .setCache | .setGone | .storeBytes => False
  | _ => True

def discipline (B : Below) : Discipline Call Action where
  Allowed := Allowed B
  after := after B
  Dead c := c.possible = false
  Covers := Eq
  refl := Eq.refl
  trans := Eq.trans
  allowed same := by
    rintro may
    rwa [same]
  after_covers a same := congrArg (after B · a) same
  dead same dead := by rwa [same]

def spec : Procedure → Call → Call → Prop
  | .free _, c, c' => c = outside ∧ c' = outside
  | .markRounds, _, _ => False

/-- What a call has counted and holds, wherever a signal may find it. -/
structure Sound (B : Below) (c : Call) : Prop where
  quick : c.blocked = false → c.quick ≤ c.counted
  shallow : c.depth = 0 → c.opens = 0 ∧ c.blocked = false ∧ ∀ l ∈ c.hold.locks, l = .hugeLock
  opens : c.opens ≠ 0 → B.opens = 0

theorem sound_outside (B : Below) : Sound B outside :=
  ⟨fun _ => Nat.le_refl 0, fun _ => ⟨rfl, rfl, nofun⟩, fun some => absurd rfl some⟩

variable {B : Below} {c : Call} {l : Lock}

theorem quick_push (c : Call) (l : Lock) :
    quick { c with hold := { c.hold with locks := l :: c.hold.locks } } =
      c.quick + if l = .sweepLock ∨ l = .internalLock then 0 else 1 := by
  unfold quick
  rw [List.filter_cons]
  by_cases slow : l = .sweepLock ∨ l = .internalLock
  · rw [if_pos slow, if_neg]
    · rfl
    · intro fast
      obtain ⟨first, second⟩ := of_decide_eq_true fast
      exact slow.elim first second
  · rw [if_neg slow, if_pos (decide_eq_true (not_or.mp slow))]
    rfl

theorem quick_erase_le (c : Call) (l : Lock) :
    quick { c with hold := { c.hold with locks := c.hold.locks.erase l } } ≤ c.quick :=
  (List.erase_sublist.filter _).length_le

theorem Sound.after {a : Action} (sound : c.Sound B) (allowed : c.Allowed B a) :
    (c.after B a).Sound B := by
  cases a with
  | lock l =>
    obtain ⟨-, may⟩ := allowed
    refine ⟨?_, ?_, sound.opens⟩
    · intro free
      have pushed := quick_push c l
      change Call.quick { c with hold := { c.hold with locks := l :: c.hold.locks } } ≤ c.counted
      rw [pushed]
      rcases may with blocked | ⟨fast, -⟩
      · rw [show c.blocked = false from free] at blocked
        cases blocked
      · have before := sound.quick free
        rcases fast with rfl | fast
        · exact before
        · split
          · exact before
          · exact fast
    · intro shallow
      obtain ⟨opens, free, huge⟩ := sound.shallow shallow
      refine ⟨opens, free, ?_⟩
      intro k mem
      rcases List.mem_cons.mp mem with rfl | mem
      · rcases may with blocked | ⟨-, only⟩
        · rw [free] at blocked
          cases blocked
        · exact only shallow
      · exact huge k mem
  | tryLock l =>
    obtain ⟨rfl, deep⟩ := allowed
    exact ⟨fun free => (quick_push c _).trans_le (sound.quick free),
      fun shallow => absurd shallow deep, sound.opens⟩
  | unlock l =>
    refine ⟨fun free => (quick_erase_le c l).trans (sound.quick free), ?_, sound.opens⟩
    intro shallow
    obtain ⟨opens, free, huge⟩ := sound.shallow shallow
    exact ⟨opens, free, fun k mem => huge k (List.mem_of_mem_erase mem)⟩
  | locksUp =>
    exact ⟨fun free => Nat.le_succ_of_le (sound.quick free), sound.shallow, sound.opens⟩
  | locksDown =>
    exact ⟨fun _ => Nat.le_sub_one_of_lt allowed, sound.shallow, sound.opens⟩
  | depthUp =>
    exact ⟨sound.quick, fun shallow => absurd shallow (Nat.succ_ne_zero _), sound.opens⟩
  | depthDown =>
    obtain ⟨-, locks, opens, free⟩ := allowed
    refine ⟨sound.quick, fun _ => ⟨opens, free, ?_⟩, sound.opens⟩
    intro l mem
    change l ∈ c.hold.locks at mem
    rw [locks] at mem
    cases mem
  | openArrays =>
    obtain ⟨others, deep⟩ := allowed
    exact ⟨sound.quick, fun shallow => absurd shallow deep, fun _ => others⟩
  | closeArrays =>
    refine ⟨sound.quick, ?_, ?_⟩
    · intro shallow
      obtain ⟨opens, rest⟩ := sound.shallow shallow
      refine ⟨?_, rest⟩
      change c.opens - 1 = 0
      rw [opens]
    · intro some
      refine sound.opens ?_
      rintro none
      refine some ?_
      change c.opens - 1 = 0
      rw [none]
  | blockSignals => exact ⟨nofun, fun shallow => absurd shallow allowed, sound.opens⟩
  | restoreSignals =>
    obtain ⟨fast, deep⟩ := allowed
    exact ⟨fun _ => fast, fun shallow => absurd shallow deep, sound.opens⟩
  | setCache | setGone | storeBytes => exact allowed.elim
  | query | defer | loadCount | storeCount | loadDeferred | release | stopThreads | resumeThreads
  | createWorker | awaitWorker | storeThreadId | startRound | awaitGo | seeRound | finishRound
  | awaitDone | enterChild | initWorkLock =>
    exact ⟨sound.quick, sound.shallow, sound.opens⟩

end Call

/-! ## Every function nests -/

/-- The program does what a call above `B` may, from `c` to `c'`. -/
def Nests (B : Call.Below) (c : Call) (p : Program) (c' : Call) : Prop :=
  Code.Checks (Call.discipline B) Call.spec c p c'

namespace Nests

variable {B : Call.Below} {c c' : Call} {p q : Program} {l : Lock}

theorem act {a : Action} (allowed : c.Allowed B a) : Nests B c (.act a) (c.after B a) :=
  Code.Checks.act (D := Call.discipline B) allowed

theorem maybe (nests : Nests B c p c) : Nests B c (maybe p) c := .either nests .skip

theorem after_query {r : Query} {b : Bool} (agrees : (c.answer B r).all (· == b) = true) :
    c.after B (.query r b) = c := by
  change { c with possible := c.possible && (c.answer B r).all (· == b) } = c
  rw [agrees, Bool.and_true]

theorem query {r : Query} {b : Bool} (nests : c.answer B r ≠ some (!b) → Nests B c p c') :
    Nests B c (.list [.act (.query r b), p]) c' := by
  have asked : Nests B c (.act (.query r b)) _ := act trivial
  by_cases agrees : (c.answer B r).all (· == b) = true
  · rw [after_query agrees] at asked
    refine cons asked (single (nests ?_))
    intro differs
    rw [differs] at agrees
    cases b <;> cases agrees
  · refine cons asked (.dead ?_)
    change (c.possible && (c.answer B r).all (· == b)) = false
    rw [Bool.eq_false_of_not_eq_true agrees, Bool.and_false]

/-- A test of the thread's counters goes the way they say. -/
theorem branch {r : Query} (yes : c.answer B r ≠ some false → Nests B c p c')
    (no : c.answer B r ≠ some true → Nests B c q c') : Nests B c (branch r p q) c' :=
  .either (query yes) (query no)

theorem branch_true {r : Query} (answered : c.answer B r = some true) (yes : Nests B c p c') :
    Nests B c (Program.branch r p q) c' :=
  branch (fun _ => yes) fun differs => absurd answered differs

theorem branch_false {r : Query} (answered : c.answer B r = some false) (no : Nests B c q c') :
    Nests B c (Program.branch r p q) c' :=
  branch (fun differs => absurd answered differs) fun _ => no

end Nests

namespace Call

/-- With a lock taken and counted. -/
def holding (c : Call) (l : Lock) : Call :=
  { c with hold := { c.hold with locks := l :: c.hold.locks }, counted := c.counted + 1 }

/-- In the counted part of an entry, with the arrays open so often. -/
def inner (opens : Nat) : Call := { outside with depth := 1, opens := opens }

end Call

namespace Nests

variable {B : Call.Below} {c c' : Call} {p q : Program} {l : Lock}

theorem take (apart : l ∉ B.held) (fast : c.quick ≤ c.counted)
    (deep : c.depth = 0 → l = .hugeLock) : Nests B c (take l) (c.holding l) := by
  have counted : Nests B c (onlyIf .cached (.act .locksUp)) { c with counted := c.counted + 1 } :=
    branch_true rfl (act trivial)
  exact cons counted (single (act ⟨apart, .inr ⟨.inr (Nat.lt_succ_of_le fast), deep⟩⟩))

theorem unlock {h : Hold} : Nests B { c with hold := { h with locks := l :: h.locks } }
    (weavecRtUnlock l) { c with hold := h } := by
  have dropped : Nests B { c with hold := { h with locks := l :: h.locks } }
      (weavecRtUnlock l) { c with hold := { h with locks := (l :: h.locks).erase l } } :=
    act trivial
  rwa [List.erase_cons_head] at dropped

theorem give (fast : c.quick ≤ c.counted) : Nests B (c.holding l) (give l) c := by
  have dropped : Nests B (c.holding l) (weavecRtUnlock l) { c with counted := c.counted + 1 } :=
    @unlock B { c with counted := c.counted + 1 } l c.hold
  have uncounted : Nests B { c with counted := c.counted + 1 } (.act .locksDown) c :=
    act (Nat.lt_succ_of_le fast)
  exact branch_true rfl (cons dropped (single uncounted))

theorem takeGive (apart : l ∉ B.held) (fast : c.quick ≤ c.counted)
    (deep : c.depth = 0 → l = .hugeLock) :
    Nests B c (.list [Locks.take l, Locks.give l]) c :=
  cons (take apart fast deep) (single (give fast))

theorem internal (apart : .internalLock ∉ B.held) (deep : c.depth ≠ 0) :
    Nests B c weavecRtInternal c :=
  cons (act ⟨apart, .inr ⟨.inl rfl, fun shallow => absurd shallow deep⟩⟩) (single unlock)

/-- What a program does to locks alone, with the signals blocked and nothing
held below. -/
def Mute : Action → Prop
  | .lock _ | .unlock _ | .stopThreads | .resumeThreads | .createWorker | .awaitWorker
  | .startRound | .awaitDone => True
  | _ => False

theorem of_keeps {h h' : Hold} (empty : B.held = []) (mute : p.Every Mute) (keeps : Keeps h p h') :
    Nests B { c with hold := h, blocked := true } p { c with hold := h', blocked := true } := by
  induction keeps with
  | dead dead => exact dead.elim
  | skip => exact .skip
  | @act h a _ =>
    cases a with
    | lock l =>
      refine act ⟨?_, .inl rfl⟩
      rw [empty]
      exact List.not_mem_nil
    | unlock | stopThreads | resumeThreads | createWorker | awaitWorker | startRound
    | awaitDone => exact act trivial
    | tryLock | query | storeBytes | locksUp | locksDown | depthUp | depthDown | setCache | setGone
    | openArrays | closeArrays | defer | loadCount | storeCount | loadDeferred | release
    | blockSignals | restoreSignals | storeThreadId | awaitGo | seeRound | finishRound
    | enterChild | initWorkLock => exact mute.elim
  | seq _ _ first second => exact .seq (first mute.1) (second mute.2)
  | either _ _ left right => exact .either (left mute.1) (right mute.2)
  | any _ each => exact .any fun i => each i (mute i)
  | loop _ round => exact .loop (round mute)
  | call => exact mute.elim
  | weaken covers _ covers' inner =>
    obtain rfl := covers
    obtain rfl := covers'
    exact inner mute

end Nests

/-- What is below where a call is let in. -/
structure Call.Below.Clear (B : Call.Below) : Prop where
  /-- Outside every counted call nothing is held or open. -/
  outer : B.depth = 0 → B.held = [] ∧ B.opens = 0
  /-- Where the counter says that no lock is held, there is at most the sweep's
  beginning. -/
  quick : B.counted = 0 → ∀ l ∈ B.held, l = .sweepLock ∨ l = .internalLock

open Nests

variable {B : Call.Below} {opens : Nat}

/-- The call was not refused: what it may take is free. -/
def Call.Below.Free (B : Call.Below) : Prop :=
  ∀ l ∈ B.held, l = .sweepLock ∨ l = .internalLock

theorem Call.Below.Free.apart {l : Lock} (free : B.Free) (first : l ≠ .sweepLock)
    (second : l ≠ .internalLock) : l ∉ B.held := fun mem => (free l mem).elim first second

theorem nests_popRegion (free : B.Free) (region : Region) :
    Nests B (.inner opens) (popRegion region) (.inner opens) :=
  takeGive (free.apart nofun nofun) (Nat.le_refl 0) nofun

theorem nests_flushReleases (free : B.Free) (shut : B.opens = 0) :
    Nests B (.inner opens) flushReleases (.inner opens) := by
  have opened : Nests B (.inner opens) (.act .openArrays) (.inner (opens + 1)) :=
    act ⟨shut, nofun⟩
  have closed : Nests B (.inner (opens + 1)) (.act .closeArrays) (.inner opens) := act trivial
  exact cons opened (cons (.loop (.any (nests_popRegion free))) (single closed))

theorem nests_drainCache (free : B.Free) (shut : B.opens = 0) :
    Nests B (.inner opens) drainCache (.inner opens) :=
  .loop (cons (nests_flushReleases free shut) (single (nests_flushReleases free shut)))

theorem every_lockAll : weavecRtLockAll.Every Mute := by
  refine ⟨trivial, trivial, Code.every_list ?_, trivial, trivial⟩
  intro c mem
  obtain ⟨i, -, rfl⟩ := List.mem_map.mp mem
  trivial

theorem every_unlockAll : weavecRtUnlockAll.Every Mute := by
  refine ⟨trivial, Code.every_list ?_, trivial, trivial, trivial⟩
  intro c mem
  obtain ⟨i, -, rfl⟩ := List.mem_map.mp mem
  trivial

theorem every_internal : weavecRtInternal.Every Mute := ⟨trivial, trivial, trivial⟩

theorem every_runWork : runWork.Every Mute :=
  ⟨trivial, trivial, trivial, trivial, ⟨trivial, trivial, trivial, trivial⟩, trivial, trivial⟩

theorem every_stopTheWorld : stopTheWorld.Every Mute :=
  ⟨every_lockAll, trivial,
    ⟨⟨every_internal, ⟨⟨⟨every_internal, ⟨every_internal, trivial⟩, trivial⟩,
      ⟨every_runWork, trivial⟩, trivial⟩, trivial⟩, trivial⟩, trivial⟩,
    trivial, every_unlockAll, trivial⟩

theorem every_startWorkers : startWorkers.Every Mute :=
  ⟨⟨every_internal, trivial⟩, ⟨⟨trivial, trivial, trivial⟩, trivial⟩, trivial⟩

/-- A call above a counted one sweeps nothing. -/
theorem nests_weavecRtSweep (clear : B.Clear) :
    Nests B (.inner opens) weavecRtSweep (.inner opens) := by
  by_cases outer : B.depth = 0
  · obtain ⟨empty, shut⟩ := clear.outer outer
    have free : B.Free := by
      intro l mem
      rw [empty] at mem
      cases mem
    have alone : Call.answer B (.inner opens) .nested = some false := by
      change some (decide (1 < B.depth + 1)) = some false
      rw [outer]
      rfl
    let swept : Call := { Call.inner opens with hold := ⟨[.sweepLock], .plain⟩ }
    have tried : Nests B (.inner opens) (.act (.tryLock .sweepLock)) swept := act ⟨rfl, nofun⟩
    have recorded : Nests B swept weavecRtInternal swept := by
      refine internal ?_ nofun
      rw [empty]
      exact List.not_mem_nil
    have blocked : Nests B swept (.act .blockSignals) { swept with blocked := true } :=
      act (show (1 : Nat) ≠ 0 by decide)
    have workers : Nests B { swept with blocked := true } startWorkers
        { swept with blocked := true } :=
      of_keeps empty every_startWorkers keeps_startWorkers
    have stopped : Nests B { swept with blocked := true } stopTheWorld
        { swept with blocked := true } :=
      of_keeps empty every_stopTheWorld keeps_stopTheWorld
    have restored : Nests B { swept with blocked := true } (.act .restoreSignals) swept :=
      act ⟨Nat.le_refl 0, nofun⟩
    have given : Nests B swept (weavecRtUnlock .sweepLock) (.inner opens) :=
      @unlock B (.inner opens) .sweepLock Hold.nothing
    have flushed : Nests B (.inner opens) weavecRtFlushThread (.inner opens) :=
      branch_true rfl (nests_drainCache free shut)
    exact branch_false alone (cons flushed (single (maybe (cons tried
      (cons (maybe (cons recorded (single (maybe recorded))))
        (cons (maybe (cons blocked (cons (maybe workers) (cons stopped (single restored)))))
          (single given)))))))
  · have nested : Call.answer B (.inner opens) .nested = some true := by
      change some (decide (1 < B.depth + 1)) = some true
      rw [decide_eq_true (Nat.succ_lt_succ (Nat.pos_of_ne_zero outer))]
    exact branch_true nested .skip

theorem nests_popClass (clear : B.Clear) (free : B.Free) :
    Nests B (.inner opens) popClass (.inner opens) := by
  have spare : Nests B (.inner opens) takeSpare (.inner opens) :=
    takeGive (free.apart nofun nofun) (Nat.le_refl 0) nofun
  exact .loop (cons (.loop (.any (nests_popRegion free))) (cons (maybe (nests_weavecRtSweep clear))
    (single (maybe spare))))

/-- Only an outermost call has the cache. -/
theorem nests_cacheFor {cache none : Program} (clear : B.Clear)
    (with_cache : B.opens = 0 → Nests B (.inner 0) cache (.inner 0))
    (without : Nests B (.inner 0) none (.inner 0)) :
    Nests B (.inner 0) (cacheFor cache none) (.inner 0) := by
  refine .either (branch_true rfl (branch (fun _ => without) fun alone => ?_)) without
  refine with_cache (clear.outer ?_).2
  by_contra nested
  refine alone ?_
  change some (decide (1 < B.depth + 1)) = some true
  rw [decide_eq_true (Nat.succ_lt_succ (Nat.pos_of_ne_zero nested))]

theorem nests_allocate (clear : B.Clear) (free : B.Free) (apart : .internalLock ∉ B.held) :
    Nests B (.inner 0) allocate (.inner 0) := by
  have cached (shut : B.opens = 0) : Nests B (.inner 0) cachedAlloc (.inner 0) := by
    have opened : Nests B (.inner 0) (.act .openArrays) (.inner 1) := act ⟨shut, nofun⟩
    have closed : Nests B (.inner 1) (.act .closeArrays) (.inner 0) := act trivial
    exact cons opened (cons (maybe (nests_popClass clear free)) (single closed))
  have recorded : Nests B ((Call.inner 0).holding .hugeLock) weavecRtInternal
      ((Call.inner 0).holding .hugeLock) := internal apart nofun
  have given : Nests B ((Call.inner 0).holding .hugeLock) (Locks.give .hugeLock) (.inner 0) :=
    Nests.give (Nat.le_refl 0)
  have huge : Nests B (.inner 0) hugeAlloc (.inner 0) :=
    maybe (cons (Nests.take (free.apart nofun nofun) (Nat.le_refl 0) nofun) (single (.either given
      (cons (maybe (cons recorded (single (maybe recorded)))) (single given)))))
  exact cons (branch_true rfl .skip) (single (maybe (cons
    (maybe (nests_cacheFor clear cached (nests_popClass clear free))) (single (maybe huge)))))

theorem nests_hugeFind {c : Call} (apart : .hugeLock ∉ B.held) (fast : c.quick ≤ c.counted) :
    Nests B c hugeFind c :=
  maybe (takeGive apart fast fun _ => rfl)

theorem nests_release (clear : B.Clear) (free : B.Free) (p : Pointer) :
    Nests B (.inner 0) (release p) (.inner 0) := by
  have retired : Nests B (.inner 0) retire (.inner 0) :=
    cons (.any (nests_popRegion free)) (single (maybe (nests_weavecRtSweep clear)))
  have released {c : Call} : Nests B c (.act (.release p)) c := act trivial
  have cached (shut : B.opens = 0) : Nests B (.inner 0) cachedRelease (.inner 0) := by
    have opened : Nests B (.inner 0) (.act .openArrays) (.inner 1) := act ⟨shut, nofun⟩
    have closed : Nests B (.inner 1) (.act .closeArrays) (.inner 0) := act trivial
    exact cons opened (cons closed (single (maybe (cons (nests_flushReleases free shut)
      (single (maybe (nests_weavecRtSweep clear)))))))
  have apart : .hugeLock ∉ B.held := free.apart nofun nofun
  have huge : Nests B (.inner 0) (hugeFree p) (.inner 0) :=
    cons (Nests.take apart (Nat.le_refl 0) nofun)
      (cons released (single (Nests.give (Nat.le_refl 0))))
  have found : Nests B (.inner 0) hugeFind (.inner 0) := nests_hugeFind apart (Nat.le_refl 0)
  exact .either
    (maybe (cons released (single (nests_cacheFor clear cached retired))))
    (.either (cons huge (single (maybe (nests_weavecRtSweep clear))))
      (cons found (cons found (single (maybe released)))))

/-! ### The entry points -/

theorem nests_counted {work : Program} (nests : Nests B (.inner 0) work (.inner 0)) :
    Nests B .outside (counted work) .outside := by
  have up : Nests B .outside (.act .depthUp) (.inner 0) := act trivial
  have down : Nests B (.inner 0) (.act .depthDown) .outside := act ⟨nofun, rfl, rfl, rfl⟩
  have loadCount : Nests B .outside (.act .loadCount) .outside := act trivial
  have storeCount : Nests B .outside (.act .storeCount) .outside := act trivial
  have loadDeferred : Nests B .outside (.act .loadDeferred) .outside := act trivial
  have asked (b : Bool) : Nests B .outside (.act (.query .pending b)) .outside :=
    own trivial (after_query rfl)
  have freed : Nests B .outside (.call (.free .deferred)) .outside := .call ⟨rfl, rfl⟩
  have drained : Nests B .outside drainDeferred .outside :=
    cons (.loop (cons (asked true) (cons loadCount (cons storeCount (cons loadDeferred
      (single freed)))))) (single (asked false))
  exact cons up (cons nests (cons down (single (branch (fun _ => .skip) fun _ => drained))))

theorem Call.Below.Clear.free (clear : B.Clear)
    (passed : Call.answer B .outside .busy ≠ some true) : B.Free := by
  intro l mem
  by_cases outer : B.depth = 0
  · rw [(clear.outer outer).1] at mem
    cases mem
  · refine clear.quick ?_ l mem
    by_contra counted
    exact passed (congrArg some (decide_eq_true ⟨outer, counted⟩))

theorem nests_weavecRtAlloc (clear : B.Clear)
    (recorded : .internalLock ∈ B.held → .hugeLock ∈ B.held) :
    Nests B .outside weavecRtAlloc .outside := by
  refine branch_true rfl (branch (fun _ => .skip) fun passed => ?_)
  have free := clear.free passed
  have apart : .hugeLock ∉ B.held := free.apart nofun nofun
  exact nests_counted (nests_allocate clear free fun mem => apart (recorded mem))

theorem nests_weavecRtFree (clear : B.Clear) (p : Pointer) :
    Nests B .outside (weavecRtFree p) .outside := by
  have deferred : Nests B .outside (onlyIf .room (.act (.defer p))) .outside :=
    branch (fun _ => act trivial) fun _ => .skip
  exact branch_true rfl (branch (fun _ => deferred) fun passed =>
    nests_counted (nests_release clear (clear.free passed) p))

theorem nests_weavecRtRealloc (clear : B.Clear) (recorded : .internalLock ∉ B.held)
    (apart : .hugeLock ∉ B.held) : Nests B .outside weavecRtRealloc .outside := by
  have alloc : Nests B .outside weavecRtAlloc .outside :=
    nests_weavecRtAlloc clear fun mem => absurd mem recorded
  have freed : Nests B .outside (.call (.free .argument)) .outside := .call ⟨rfl, rfl⟩
  have released : Nests B .outside (.act (.release .argument)) .outside := act trivial
  have found : Nests B .outside hugeFind .outside := nests_hugeFind apart (Nat.le_refl 0)
  exact .either alloc (cons (maybe found) (single (.either
    (maybe (cons found (single (maybe released)))) (cons alloc (single (maybe freed))))))

theorem nests_weavecRtSize (apart : .hugeLock ∉ B.held) :
    Nests B .outside weavecRtSize .outside := by
  have found : Nests B .outside hugeFind .outside := nests_hugeFind apart (Nat.le_refl 0)
  exact cons (maybe found) (single (maybe found))

theorem nests_body (clear : B.Clear) (f : Procedure) (c c' : Call) (meets : Call.spec f c c') :
    Nests B c f.body c' := by
  cases f with
  | free p =>
    obtain ⟨rfl, rfl⟩ := meets
    exact nests_weavecRtFree clear p
  | markRounds => exact meets.elim

end WeaveC.Locks
