import WeaveC.Locks.Ledger

/-!
# Runs with signals

Where a signal's call comes in, the thread's counters say what the interrupted
calls hold, so the call is refused or takes locks that are free; what it
releases takes effect once.
-/

namespace WeaveC.Locks

open WeaveC.Library Program

/-! ## When a signal may call -/

/-- It holds no lock, has no arrays open, and is not between asking the deferred
releases and using the answer. -/
def Frame.Idle (f : Frame) : Prop :=
  f.call.hold.locks = [] ∧ f.call.opens = 0 ∧ f.token.window = .shut

instance (f : Frame) : Decidable f.Idle := inferInstanceAs (Decidable (_ ∧ _ ∧ _))

namespace Nest

/-- The calls in progress began with the thread's cache in place, and none of
them is between asking the deferred releases and using the answer. -/
def Steady (n : Nest) : Prop := ∀ f ∈ n.frames, f.covered = true ∧ f.token.window = .shut

instance (n : Nest) : Decidable n.Steady := inferInstanceAs (Decidable (∀ _ ∈ _, _ ∧ _))

def Quiet (n : Nest) : Prop := ∀ f ∈ n.frames, f.Idle

instance (n : Nest) : Decidable n.Quiet := inferInstanceAs (Decidable (∀ f ∈ n.frames, f.Idle))

/-- With the cache's counters of use, or with nothing to disturb. -/
def Meets (n : Nest) : Event → Prop
  | .signal .alloc => n.Quiet ∨ n.Steady ∧ (.hugeLock ∈ n.held → n.depth ≠ 0) ∧
      (.internalLock ∈ n.held → .hugeLock ∈ n.held)
  | .signal .free => n.Quiet ∨ n.Steady ∧ (.hugeLock ∈ n.held → n.depth ≠ 0)
  | .signal .realloc => n.Quiet ∨ n.Steady ∧ .hugeLock ∉ n.held ∧ .internalLock ∉ n.held
  | .signal .size => .hugeLock ∉ n.held
  | _ => True

instance (n : Nest) (e : Event) : Decidable (n.Meets e) := by
  unfold Meets
  split <;> infer_instance

/-- What a nested call does to the calls below it, and what becomes of
releases. -/
structure Safe (n : Nest) : Prop where
  /-- A call never waits for a lock its own thread holds. -/
  lock : ∀ f rest l, n.frames = f :: rest → f.code.head = some (.lock l) → l ∉ n.held
  /-- It is in the cache's arrays only while no call below is. -/
  arrays : ∀ f rest, n.frames = f :: rest →
    f.code.head = some .openArrays ∨ f.call.opens ≠ 0 → ∀ g ∈ rest, g.call.opens = 0
  /-- A release takes effect at most once. -/
  once : n.released.Nodup

end Nest

/-! ## The calls in progress -/

/-- What holds of a call above `rest`. -/
structure Frame.Kept (f : Frame) (rest : List Frame) : Prop where
  order : ∃ h', Keeps f.call.hold f.code h'
  token : ∃ t', Spends f.token f.code t'
  size : f.entry = .size → f.code.Every SizeAct ∧ .hugeLock ∉ (below rest).held ∧
    f.call.opens = 0 ∧ f.token = .fresh
  calm : f.entry ≠ .size → ∀ g ∈ rest, g.token.window = .shut
  bare : f.covered = false → f.entry = .size ∨ ∀ g ∈ rest, g.Idle
  others : f.covered = true → ∀ g ∈ rest, g.covered = true
  alone : f.covered = false → rest ≠ [] → ∃ g ∈ rest, g.covered = false
  clear : f.covered = true → (below rest).Clear
  sound : f.covered = true → f.call.possible = true ∧ f.call.Sound (below rest)
  nests : f.covered = true → Nests (below rest) f.call f.code .outside

def Kept : List Frame → Prop
  | [] => True
  | f :: rest => f.Kept rest ∧ Kept rest

namespace Frame

variable {f : Frame} {rest : List Frame} {a : Action}

theorem Kept.advance (kept : f.Kept rest) (next : f.code.head = some a)
    (possible : f.covered = true → (f.call.after (below rest) a).possible = true) :
    (f.advance (below rest) a).Kept rest := by
  obtain ⟨h', order⟩ := kept.order
  obtain ⟨t', token⟩ := kept.token
  constructor
  · have kept_hold : (f.advance (below rest) a).call.hold = f.call.hold.after a :=
      Call.after_hold _ _ a
    rw [kept_hold]
    exact ⟨h', order.rest not_false next⟩
  · exact ⟨t', token.rest not_false next⟩
  · intro size
    obtain ⟨every, apart, opens, fresh⟩ := kept.size size
    have acts := every.head next
    refine ⟨every.rest, apart, ?_, ?_⟩
    · change (f.call.after (below rest) a).opens = 0
      cases a with
      | query | lock | unlock | locksUp | locksDown => exact opens
      | _ => exact acts.elim
    · change f.token.after a = .fresh
      cases a with
      | query q b =>
        cases q with
        | cached => exact fresh
        | _ => exact acts.elim
      | lock | unlock | locksUp | locksDown => exact fresh
      | _ => exact acts.elim
  · exact kept.calm
  · exact kept.bare
  · exact kept.others
  · exact kept.alone
  · exact kept.clear
  · intro covered
    obtain ⟨was, sound⟩ := kept.sound covered
    have nests := kept.nests covered
    have live : ¬ (Call.discipline (below rest)).Dead f.call := by
      intro dead
      rw [show f.call.possible = false from dead] at was
      cases was
    exact ⟨possible covered, sound.after (nests.allowed live next)⟩
  · intro covered
    obtain ⟨was, -⟩ := kept.sound covered
    refine (kept.nests covered).rest ?_ next
    intro dead
    rw [show f.call.possible = false from dead] at was
    cases was

theorem Kept.resolve {c : Program} {d : Turn Region} (kept : f.Kept rest)
    (resolved : f.code.resolve Procedure.body d = some c) :
    Frame.Kept { f with code := c } rest := by
  obtain ⟨h', order⟩ := kept.order
  obtain ⟨t', token⟩ := kept.token
  constructor
  · exact ⟨h', order.resolve keeps_body resolved⟩
  · exact ⟨t', token.resolve spends_body resolved⟩
  · intro size
    obtain ⟨every, others⟩ := kept.size size
    exact ⟨every.resolve resolved, others⟩
  · exact kept.calm
  · exact kept.bare
  · exact kept.others
  · exact kept.alone
  · exact kept.clear
  · exact kept.sound
  · intro covered
    exact (kept.nests covered).resolve (nests_body (kept.clear covered)) resolved

end Frame

theorem below_held (f : Frame) (rest : List Frame) :
    (below (f :: rest)).held = f.call.hold.locks ++ (below rest).held := by
  simp only [below, List.flatMap_cons]

theorem below_counted (f : Frame) (rest : List Frame) :
    (below (f :: rest)).counted = f.call.counted + (below rest).counted := by
  simp only [below, List.map_cons, List.sum_cons]

theorem below_depth (f : Frame) (rest : List Frame) :
    (below (f :: rest)).depth = f.call.depth + (below rest).depth := by
  simp only [below, List.map_cons, List.sum_cons]

theorem below_opens (f : Frame) (rest : List Frame) :
    (below (f :: rest)).opens = f.call.opens + (below rest).opens := by
  simp only [below, List.map_cons, List.sum_cons]

namespace Nest

variable {n n' : Nest} {f : Frame} {rest : List Frame} {a : Action}

/-- The running call goes past its action; the calls below stand still. -/
theorem frames_of_perform (done : n.perform f rest a = some n') : ∃ count pointer,
    n'.frames = { f.advance (below rest) a with count := count, pointer := pointer } :: rest := by
  cases a with
  | lock l | tryLock l =>
    obtain ⟨-, eq⟩ := Option.ite_none_left_eq_some.mp done
    obtain rfl := Option.some.inj eq
    exact ⟨_, _, rfl⟩
  | query q b =>
    obtain ⟨-, eq⟩ := Option.ite_none_right_eq_some.mp done
    obtain rfl := Option.some.inj eq
    exact ⟨_, _, rfl⟩
  | loadDeferred =>
    obtain ⟨-, rfl⟩ := perform_loadDeferred done
    exact ⟨_, _, rfl⟩
  | _ =>
    obtain rfl := Option.some.inj done
    exact ⟨_, _, rfl⟩

/-- The thread's cache is there, and its counters say what its calls have
added. -/
structure Counted (n : Nest) : Prop where
  own : n.own = .made
  reserved : n.reserved = true
  depth : n.depth = (below n.frames).depth
  locks : n.locks = (below n.frames).counted

theorem Counted.answer (counted : n.Counted) (frames : n.frames = f :: rest) {q : Query} {b : Bool}
    (answered : f.call.answer (below rest) q = some b) : n.answer q = b := by
  obtain ⟨own, reserved, depth, locks⟩ := counted
  rw [frames, below_depth] at depth
  rw [frames, below_counted] at locks
  cases q with
  | reserved => exact reserved.trans (Option.some.inj answered)
  | cached => exact (decide_eq_true own).trans (Option.some.inj answered)
  | unmade =>
    refine (decide_eq_false ?_).trans (Option.some.inj answered)
    rw [own]
    exact nofun
  | busy =>
    refine (decide_eq_decide.mpr ?_).trans (Option.some.inj answered)
    rw [depth, locks]
    omega
  | nested =>
    refine (decide_eq_decide.mpr ?_).trans (Option.some.inj answered)
    rw [depth]
    simp only [own, true_and]
    omega
  | inside =>
    refine (decide_eq_decide.mpr ?_).trans (Option.some.inj answered)
    rw [depth]
    omega
  | pending | room => cases answered

/-- An action that is not about the counters. -/
theorem Counted.congr (counted : n.Counted) (frames : n.frames = f :: rest) {f' : Frame}
    (frames' : n'.frames = f' :: rest) (own : n'.own = n.own) (reserved : n'.reserved = n.reserved)
    (depth : n'.depth = n.depth) (locks : n'.locks = n.locks) (up : f'.call.depth = f.call.depth)
    (more : f'.call.counted = f.call.counted) : n'.Counted := by
  refine ⟨own.trans counted.own, reserved.trans counted.reserved, ?_, ?_⟩
  · rw [depth, counted.depth, frames, frames', below_depth, below_depth, up]
  · rw [locks, counted.locks, frames, frames', below_counted, below_counted, more]

/-- An allowed action of a call with the cache keeps the counters true. -/
theorem Counted.perform (counted : n.Counted) (frames : n.frames = f :: rest)
    (allowed : f.call.Allowed (below rest) a) (done : n.perform f rest a = some n') :
    n'.Counted := by
  have depth := counted.depth
  have locks := counted.locks
  rw [frames, below_depth] at depth
  rw [frames, below_counted] at locks
  cases a with
  | setCache | setGone | storeBytes => exact allowed.elim
  | locksUp =>
    obtain rfl := Option.some.inj done
    refine ⟨counted.own, counted.reserved, depth.trans (congrArg _ (below_depth _ rest).symm), ?_⟩
    rw [below_counted]
    change n.locks + 1 = ((f.call.counted + 1 + (below rest).counted : Nat) : Int)
    omega
  | locksDown =>
    obtain rfl := Option.some.inj done
    refine ⟨counted.own, counted.reserved, depth.trans (congrArg _ (below_depth _ rest).symm), ?_⟩
    rw [below_counted]
    have some : f.call.quick < f.call.counted := allowed
    change n.locks - 1 = ((f.call.counted - 1 + (below rest).counted : Nat) : Int)
    omega
  | depthUp =>
    obtain rfl := Option.some.inj done
    refine ⟨counted.own, counted.reserved, ?_, locks.trans (congrArg _ (below_counted _ rest).symm)⟩
    rw [below_depth]
    change n.depth + 1 = ((f.call.depth + 1 + (below rest).depth : Nat) : Int)
    omega
  | depthDown =>
    obtain rfl := Option.some.inj done
    refine ⟨counted.own, counted.reserved, ?_, locks.trans (congrArg _ (below_counted _ rest).symm)⟩
    rw [below_depth]
    have some : f.call.depth ≠ 0 := allowed.1
    change n.depth - 1 = ((f.call.depth - 1 + (below rest).depth : Nat) : Int)
    omega
  | lock l | tryLock l =>
    obtain ⟨-, eq⟩ := Option.ite_none_left_eq_some.mp done
    obtain rfl := Option.some.inj eq
    exact counted.congr frames rfl rfl rfl rfl rfl rfl rfl
  | query q b =>
    obtain ⟨-, eq⟩ := Option.ite_none_right_eq_some.mp done
    obtain rfl := Option.some.inj eq
    exact counted.congr frames rfl rfl rfl rfl rfl rfl rfl
  | loadDeferred =>
    obtain ⟨-, rfl⟩ := perform_loadDeferred done
    exact counted.congr frames rfl rfl rfl rfl rfl rfl rfl
  | unlock | openArrays | closeArrays | defer | loadCount | storeCount | release | blockSignals
  | restoreSignals | stopThreads | resumeThreads | createWorker | awaitWorker | storeThreadId
  | startRound | awaitGo | seeRound | finishRound | awaitDone | enterChild | initWorkLock =>
    obtain rfl := Option.some.inj done
    exact counted.congr frames rfl rfl rfl rfl rfl rfl rfl

end Nest

/-! ## What is below -/

section Below

variable {frames : List Frame}

/-- Where no call counts, none has the arrays open, and only an uncounted
search of the huge blocks holds a lock. -/
theorem Kept.shallow (kept : Kept frames) (covered : ∀ f ∈ frames, f.covered = true)
    (depth : (below frames).depth = 0) :
    (below frames).opens = 0 ∧ ∀ l ∈ (below frames).held, l = .hugeLock := by
  induction frames with
  | nil => exact ⟨rfl, nofun⟩
  | cons f rest inductionHypothesis =>
    obtain ⟨top, others⟩ := kept
    obtain ⟨-, sound⟩ := top.sound (covered f List.mem_cons_self)
    rw [below_depth] at depth
    obtain ⟨opens, -, own⟩ := sound.shallow (Nat.eq_zero_of_add_eq_zero_right depth)
    obtain ⟨shut, held⟩ := inductionHypothesis others
      (fun g mem => covered g (List.mem_cons_of_mem f mem)) (Nat.eq_zero_of_add_eq_zero_left depth)
    constructor
    · rw [below_opens, opens, shut]
    · intro l mem
      rw [below_held] at mem
      exact (List.mem_append.mp mem).elim (own l) (held l)

/-- Where no call has counted a lock, there is at most a sweep's beginning. -/
theorem Kept.uncounted (kept : Kept frames) (covered : ∀ f ∈ frames, f.covered = true)
    (unblocked : ∀ f ∈ frames, f.call.blocked = false) (counted : (below frames).counted = 0) :
    ∀ l ∈ (below frames).held, l = .sweepLock ∨ l = .internalLock := by
  induction frames with
  | nil => exact nofun
  | cons f rest inductionHypothesis =>
    obtain ⟨top, others⟩ := kept
    obtain ⟨-, sound⟩ := top.sound (covered f List.mem_cons_self)
    rw [below_counted] at counted
    have fast := sound.quick (unblocked f List.mem_cons_self)
    rw [Nat.eq_zero_of_add_eq_zero_right counted] at fast
    have held := inductionHypothesis others
      (fun g mem => covered g (List.mem_cons_of_mem f mem))
      (fun g mem => unblocked g (List.mem_cons_of_mem f mem))
      (Nat.eq_zero_of_add_eq_zero_left counted)
    intro l mem
    rw [below_held] at mem
    rcases List.mem_append.mp mem with mem | mem
    · by_contra slow
      have none := List.eq_nil_of_length_eq_zero (Nat.le_zero.mp fast)
      have some : l ∈ f.call.hold.locks.filter fun l => l ≠ .sweepLock ∧ l ≠ .internalLock :=
        List.mem_filter.mpr ⟨mem, decide_eq_true (not_or.mp slow)⟩
      rw [none] at some
      cases some
    · exact held l mem

theorem opens_of_below (shut : (below frames).opens = 0) : ∀ g ∈ frames, g.call.opens = 0 := by
  induction frames with
  | nil =>
    intro g mem
    cases mem
  | cons f rest inductionHypothesis =>
    rw [below_opens] at shut
    intro g mem
    rcases List.mem_cons.mp mem with rfl | mem
    · exact Nat.eq_zero_of_add_eq_zero_right shut
    · exact inductionHypothesis (Nat.eq_zero_of_add_eq_zero_left shut) g mem

theorem below_of_idle (idle : ∀ f ∈ frames, f.Idle) :
    (below frames).held = [] ∧ (below frames).opens = 0 := by
  induction frames with
  | nil => exact ⟨rfl, rfl⟩
  | cons f rest inductionHypothesis =>
    obtain ⟨locks, opens, -⟩ := idle f List.mem_cons_self
    obtain ⟨held, shut⟩ := inductionHypothesis fun g mem => idle g (List.mem_cons_of_mem f mem)
    constructor
    · rw [below_held, locks, held]
      rfl
    · rw [below_opens, opens, shut]

theorem Call.Below.clear_of_nothing {B : Call.Below} (held : B.held = []) (opens : B.opens = 0) :
    B.Clear := by
  refine ⟨fun _ => ⟨held, opens⟩, ?_⟩
  intro _ l mem
  rw [held] at mem
  cases mem

/-- Where the calls below are all counted on, they are clear but for a lock of
the huge blocks outside every counted part. -/
theorem Kept.clear (kept : Kept frames) (covered : ∀ f ∈ frames, f.covered = true)
    (unblocked : ∀ f ∈ frames, f.call.blocked = false)
    (deep : .hugeLock ∈ (below frames).held → (below frames).depth ≠ 0) :
    (below frames).Clear := by
  refine ⟨?_, kept.uncounted covered unblocked⟩
  intro depth
  obtain ⟨opens, huge⟩ := kept.shallow covered depth
  refine ⟨List.eq_nil_iff_forall_not_mem.mpr ?_, opens⟩
  intro l mem
  obtain rfl := huge l mem
  exact deep mem depth

end Below

/-- What an entry needs of the calls below beside their being clear. -/
def Call.Below.Admits (B : Call.Below) : Entry → Prop
  | .alloc => .internalLock ∈ B.held → .hugeLock ∈ B.held
  | .realloc => .hugeLock ∉ B.held ∧ .internalLock ∉ B.held
  | .size => .hugeLock ∉ B.held
  | _ => True

theorem nests_entry {B : Call.Below} {e : Entry} (clear : B.Clear) (entered : Nest.Allocator e)
    (admits : B.Admits e) : Nests B .outside e.program .outside := by
  rcases entered with rfl | rfl | rfl | rfl
  · exact nests_weavecRtAlloc clear admits
  · exact Nests.maybe (.call ⟨rfl, rfl⟩)
  · exact nests_weavecRtRealloc clear admits.2 admits.1
  · exact nests_weavecRtSize admits

theorem Call.Below.admits_of_nothing {B : Call.Below} (held : B.held = []) (e : Entry) :
    B.Admits e := by
  have none (l : Lock) : l ∉ B.held := by
    rw [held]
    exact List.not_mem_nil
  cases e with
  | alloc => exact fun mem => absurd mem (none _)
  | realloc => exact ⟨none _, none _⟩
  | size => exact none _
  | free | heapObjectAt | initializeEarly | dropCache | fork => trivial

/-! ## Every step -/

namespace Nest

variable {n n' : Nest} {f : Frame} {rest : List Frame} {a : Action}

structure Invariant (n : Nest) : Prop where
  kept : Kept n.frames
  counted : ∀ f rest, n.frames = f :: rest → f.covered = true → n.Counted
  ledger : n.Ledger

theorem Invariant.safe (inv : n.Invariant) : n.Safe := by
  constructor
  · intro f rest l frames next mem
    have kept := inv.kept
    rw [frames] at kept
    obtain ⟨top, -⟩ := kept
    obtain ⟨h', order⟩ := top.order
    have ranks : f.call.hold.MayLock l := order.allowed not_false next
    unfold held at mem
    rw [frames, below_held] at mem
    rcases List.mem_append.mp mem with own | other
    · exact Nat.lt_irrefl _ (ranks.1 l own)
    · by_cases covered : f.covered = true
      · obtain ⟨possible, -⟩ := top.sound covered
        have allowed : f.call.MayLock (below rest) l :=
          (top.nests covered).allowed (fun dead => Bool.noConfusion (possible.symm.trans dead)) next
        exact allowed.1 other
      · rcases top.bare (Bool.eq_false_of_not_eq_true covered) with size | idle
        · obtain ⟨every, apart, -⟩ := top.size size
          have huge := every.head next
          cases l with
          | hugeLock => exact apart other
          | sweepLock | cacheListLock | initLock | spareLock | regionLock | internalLock
          | workLock => exact huge
        · rw [(below_of_idle idle).1] at other
          cases other
  · intro f rest frames touching
    have kept := inv.kept
    rw [frames] at kept
    obtain ⟨top, -⟩ := kept
    by_cases covered : f.covered = true
    · obtain ⟨possible, sound⟩ := top.sound covered
      apply opens_of_below
      rcases touching with next | opens
      · have allowed : (below rest).opens = 0 ∧ f.call.depth ≠ 0 :=
          (top.nests covered).allowed (fun dead => Bool.noConfusion (possible.symm.trans dead)) next
        exact allowed.1
      · exact sound.opens opens
    · rcases top.bare (Bool.eq_false_of_not_eq_true covered) with size | idle
      · obtain ⟨every, -, opens, -⟩ := top.size size
        rcases touching with next | some
        · exact (every.head next).elim
        · exact absurd opens some
      · exact opens_of_below (below_of_idle idle).2
  · exact inv.ledger.released_nodup

/-- The running call makes an action. -/
theorem Invariant.perform (inv : n.Invariant) (frames : n.frames = f :: rest)
    (next : f.code.head = some a) (done : n.perform f rest a = some n') : n'.Invariant := by
  have kept := inv.kept
  rw [frames] at kept
  obtain ⟨top, others⟩ := kept
  have live (covered : f.covered = true) : ¬ (Call.discipline (below rest)).Dead f.call :=
    fun dead => Bool.noConfusion ((top.sound covered).1.symm.trans dead)
  have possible (covered : f.covered = true) : (f.call.after (below rest) a).possible = true := by
    have counted := inv.counted f rest frames covered
    obtain ⟨was, -⟩ := top.sound covered
    cases a with
    | query q b =>
      obtain ⟨answer, -⟩ := Option.ite_none_right_eq_some.mp done
      change (f.call.possible && (f.call.answer (below rest) q).all (· == b)) = true
      rw [was, Bool.true_and]
      cases answered : f.call.answer (below rest) q with
      | none => rfl
      | some c =>
        rw [← counted.answer frames answered, answer]
        exact beq_self_eq_true b
    | _ => exact was
  obtain ⟨count, pointer, frames'⟩ := frames_of_perform done
  have advanced := top.advance next possible
  constructor
  · rw [frames']
    exact ⟨⟨advanced.order, advanced.token, advanced.size, advanced.calm, advanced.bare,
      advanced.others, advanced.alone, advanced.clear, advanced.sound, advanced.nests⟩, others⟩
  · intro g rest' eq covered
    obtain ⟨rfl, rfl⟩ := List.cons.inj (frames'.symm.trans eq)
    exact (inv.counted f rest frames covered).perform frames
      ((top.nests covered).allowed (live covered) next) done
  · obtain ⟨t', token⟩ := top.token
    refine inv.ledger.perform frames ?_ (token.allowed not_false next) done
    by_cases size : f.entry = .size
    · exact .inr ((top.size size).1.head next)
    · exact .inl (top.calm size)

theorem Invariant.turn {d : Turn Region} {c : Program} (inv : n.Invariant)
    (frames : n.frames = f :: rest) (resolved : f.code.resolve Procedure.body d = some c) :
    Invariant { n with frames := { f with code := c } :: rest } := by
  have kept := inv.kept
  rw [frames] at kept
  obtain ⟨top, others⟩ := kept
  constructor
  · exact ⟨top.resolve resolved, others⟩
  · intro g rest' eq covered
    obtain ⟨rfl, rfl⟩ := List.cons.inj eq
    have counted := inv.counted f rest frames covered
    exact counted.congr frames rfl rfl rfl rfl rfl rfl rfl
  · have fits := inv.ledger.top frames
    exact inv.ledger.still frames rfl rfl rfl rfl rfl rfl rfl fits

/-- A call that returns has given back what it counted. -/
theorem Invariant.leave (inv : n.Invariant) (frames : n.frames = f :: rest)
    (done : f.code = .skip) : Invariant { n with frames := rest } := by
  have kept := inv.kept
  rw [frames] at kept
  obtain ⟨top, others⟩ := kept
  constructor
  · exact others
  · intro g rest' eq covered
    change rest = g :: rest' at eq
    have below_covered : f.covered = true := by
      by_contra uncovered
      obtain ⟨h, mem, bad⟩ := top.alone (Bool.eq_false_of_not_eq_true uncovered)
        (by rw [eq]; exact List.cons_ne_nil _ _)
      rw [eq] at mem others
      have good : h.covered = true := by
        rcases List.mem_cons.mp mem with rfl | mem
        · exact covered
        · exact others.1.others covered h mem
      exact Bool.noConfusion (good.symm.trans bad)
    have counted := inv.counted f rest frames below_covered
    obtain ⟨possible, -⟩ := top.sound below_covered
    have ended := top.nests below_covered
    rw [done] at ended
    rcases ended.of_skip with dead | same
    · exact Bool.noConfusion (possible.symm.trans dead)
    · have outside : f.call = .outside := same
      have depth := counted.depth
      have locks := counted.locks
      rw [frames, below_depth, outside] at depth
      rw [frames, below_counted, outside] at locks
      refine ⟨counted.own, counted.reserved, depth.trans ?_, locks.trans ?_⟩
      · exact congrArg _ (Nat.zero_add _)
      · exact congrArg _ (Nat.zero_add _)
  · exact inv.ledger.leave frames

/-- A call comes in where the calls below allow it. -/
theorem Invariant.enter {e : Entry} {covered : Bool} (inv : n.Invariant)
    (entered : Allocator e ∨ e = .dropCache) (size : e = .size → .hugeLock ∉ n.held)
    (calm : e ≠ .size → ∀ g ∈ n.frames, g.token.window = .shut)
    (bare : covered = false → e = .size ∨ ∀ g ∈ n.frames, g.Idle)
    (others : covered = true → ∀ g ∈ n.frames, g.covered = true)
    (alone : covered = false → n.frames ≠ [] → ∃ g ∈ n.frames, g.covered = false)
    (clear : covered = true → Allocator e ∧ (below n.frames).Clear ∧ (below n.frames).Admits e)
    (counted : covered = true → n.Counted) : (n.enter e covered).Invariant := by
  constructor
  · refine ⟨?_, inv.kept⟩
    constructor
    · exact ⟨_, keeps_entry e⟩
    · exact spends_entry entered
    · rintro rfl
      exact ⟨every_weavecRtSize, size rfl, rfl, rfl⟩
    · exact calm
    · exact bare
    · exact others
    · exact alone
    · intro covers
      exact (clear covers).2.1
    · intro _
      exact ⟨rfl, Call.sound_outside _⟩
    · intro covers
      obtain ⟨allocator, clears, admits⟩ := clear covers
      exact nests_entry clears allocator admits
  · intro g rest' eq covers
    obtain ⟨rfl, rfl⟩ := List.cons.inj eq
    obtain ⟨own, reserved, depth, locks⟩ := counted covers
    refine ⟨own, reserved, depth.trans ?_, locks.trans ?_⟩
    · change _ = ((below (_ :: n.frames)).depth : Int)
      rw [below_depth]
      exact congrArg _ (Nat.zero_add _).symm
    · change _ = ((below (_ :: n.frames)).counted : Int)
      rw [below_counted]
      exact congrArg _ (Nat.zero_add _).symm
  · exact inv.ledger.enter e covered

/-- The program calls: nothing is below. -/
theorem Invariant.call {e : Entry} (inv : n.Invariant) (none : n.frames = [])
    (entered : Allocator e ∨ e = .dropCache) (covered : Bool)
    (covers : covered = true →
      Allocator e ∧ n.reserved = true ∧ n.own = .made ∧ n.depth = 0 ∧ n.locks = 0) :
    (n.enter e covered).Invariant := by
  have held : (below n.frames).held = [] := by
    rw [none]
    rfl
  have opens : (below n.frames).opens = 0 := by
    rw [none]
    rfl
  have empty (g : Frame) : g ∉ n.frames := by
    rw [none]
    exact List.not_mem_nil
  refine inv.enter entered ?_ ?_ ?_ ?_ ?_ ?_ ?_
  · intro _ mem
    unfold Nest.held at mem
    rw [held] at mem
    cases mem
  · intro _ g mem
    exact (empty g mem).elim
  · exact fun _ => .inr fun g mem => (empty g mem).elim
  · intro _ g mem
    exact (empty g mem).elim
  · exact fun _ some => absurd none some
  · intro is
    exact ⟨(covers is).1, Call.Below.clear_of_nothing held opens,
      Call.Below.admits_of_nothing held e⟩
  · intro is
    obtain ⟨-, reserved, own, depth, locks⟩ := covers is
    refine ⟨own, reserved, ?_, ?_⟩
    · rw [depth, none]
      rfl
    · rw [locks, none]
      rfl

/-- The calls below are idle, or all counted on. -/
theorem meets_clear {e : Entry} (inv : n.Invariant) (some : n.frames ≠ [])
    (unblocked : ∀ f ∈ n.frames, f.call.blocked = false) (entered : Allocator e)
    (meets : n.Meets (.signal e)) (covered : ∀ f ∈ n.frames, f.covered = true) :
    n.Counted ∧ (below n.frames).Clear ∧ (below n.frames).Admits e := by
  obtain ⟨f, rest, frames⟩ := List.exists_cons_of_ne_nil some
  have counted : n.Counted := by
    refine inv.counted f rest frames (covered f ?_)
    rw [frames]
    exact List.mem_cons_self
  have depth : n.depth ≠ 0 → (below n.frames).depth ≠ 0 := by
    intro deep none
    refine deep (counted.depth.trans ?_)
    rw [none]
    rfl
  have idle (quiet : n.Quiet) : (below n.frames).Clear ∧ (below n.frames).Admits e := by
    obtain ⟨held, opens⟩ := below_of_idle quiet
    exact ⟨Call.Below.clear_of_nothing held opens, Call.Below.admits_of_nothing held e⟩
  have clear (deep : .hugeLock ∈ (below n.frames).held → n.depth ≠ 0) : (below n.frames).Clear :=
    inv.kept.clear covered unblocked fun mem => depth (deep mem)
  refine ⟨counted, ?_⟩
  rcases entered with rfl | rfl | rfl | rfl
  · rcases meets with quiet | ⟨-, deep, recorded⟩
    · exact idle quiet
    · exact ⟨clear deep, recorded⟩
  · rcases meets with quiet | ⟨-, deep⟩
    · exact idle quiet
    · exact ⟨clear deep, trivial⟩
  · rcases meets with quiet | ⟨-, apart⟩
    · exact idle quiet
    · exact ⟨clear fun mem => absurd mem apart.1, apart⟩
  · exact ⟨clear fun mem => absurd mem meets, meets⟩

theorem meets_idle {e : Entry} (meets : n.Meets (.signal e)) (other : e ≠ .size)
    (entered : Allocator e) : n.Quiet ∨ n.Steady := by
  rcases entered with rfl | rfl | rfl | rfl
  · exact meets.imp_right And.left
  · exact meets.imp_right And.left
  · exact meets.imp_right And.left
  · exact absurd rfl other

theorem Invariant.signal {e : Entry} (inv : n.Invariant) (some : n.frames ≠ [])
    (unblocked : ∀ f ∈ n.frames, f.call.blocked = false) (entered : Allocator e)
    (meets : n.Meets (.signal e)) : (n.enter e (n.frames.all Frame.covered)).Invariant := by
  have all (covers : n.frames.all Frame.covered = true) : ∀ f ∈ n.frames, f.covered = true :=
    List.all_eq_true.mp covers
  refine inv.enter (.inl entered) ?_ ?_ ?_ all ?_ ?_ ?_
  · rintro rfl
    exact meets
  · intro other g mem
    rcases meets_idle meets other entered with quiet | steady
    · exact (quiet g mem).2.2
    · exact (steady g mem).2
  · intro uncovered
    by_cases size : e = .size
    · exact .inl size
    · rcases meets_idle meets size entered with quiet | steady
      · exact .inr quiet
      · rw [List.all_eq_true.mpr fun f mem => (steady f mem).1] at uncovered
        cases uncovered
  · intro uncovered _
    obtain ⟨g, mem, bad⟩ := List.all_eq_false.mp uncovered
    exact ⟨g, mem, Bool.eq_false_of_not_eq_true bad⟩
  · intro covers
    obtain ⟨-, clear⟩ := meets_clear inv some unblocked entered meets (all covers)
    exact ⟨entered, clear⟩
  · intro covers
    exact (meets_clear inv some unblocked entered meets (all covers)).1

theorem Invariant.step {e : Event} (inv : n.Invariant) (meets : n.Meets e)
    (taken : n.step e = some n') : n'.Invariant := by
  cases e with
  | call e =>
    obtain ⟨⟨none, entered⟩, eq⟩ := Option.ite_none_right_eq_some.mp taken
    obtain rfl := Option.some.inj eq
    exact inv.call none entered _ of_decide_eq_true
  | signal e =>
    obtain ⟨⟨some, unblocked, entered⟩, eq⟩ := Option.ite_none_right_eq_some.mp taken
    obtain rfl := Option.some.inj eq
    exact inv.signal some unblocked entered meets
  | turn d =>
    simp only [Nest.step] at taken
    split at taken
    · cases taken
    · next f rest frames =>
      obtain ⟨c, resolved, rfl⟩ := Option.map_eq_some_iff.mp taken
      exact inv.turn frames resolved
  | act =>
    simp only [Nest.step] at taken
    split at taken
    · cases taken
    · next f rest frames =>
      obtain ⟨a, next, done⟩ := Option.bind_eq_some_iff.mp taken
      exact inv.perform frames next done
  | leave =>
    simp only [Nest.step] at taken
    split at taken
    · next rest frames =>
      obtain rfl := Option.some.inj taken
      exact inv.leave frames rfl
    · cases taken
  | other l =>
    obtain ⟨-, eq⟩ := Option.ite_none_left_eq_some.mp taken
    obtain rfl := Option.some.inj eq
    exact ⟨inv.kept, fun f rest frames covered =>
      (inv.counted f rest frames covered).congr frames frames rfl rfl rfl rfl rfl rfl,
      ⟨inv.ledger.once, inv.ledger.room, inv.ledger.fits⟩⟩

/-- In every run whose signals come in where they may, no call waits for a lock
of its own thread, is in the cache's arrays while an interrupted call is, or
makes a release take effect twice. -/
theorem signals_nest {reserved : Bool} (run : Run Nest.step Nest.Meets (initial reserved) n) :
    n.Safe := by
  have inv : n.Invariant := by
    refine run.invariant ?_ fun s e s' kept meets taken => kept.step meets taken
    refine ⟨trivial, ?_, ledger_initial reserved⟩
    intro f rest frames
    cases frames
  exact inv.safe

/-! ### Two runs -/

namespace Event

def left : Event := .turn .left
def right : Event := .turn .right
def go : Event := .turn .go
def first : Event := .turn (.index ⟨0, by decide⟩)

end Event

/-- A thread's first allocation, which makes its cache -/
def firstAlloc : List Event :=
  [.call .alloc, .right, .act, .go, .left, .act, .go, .go, .go, .left, .left, .left, .right, .act,
   .go, .left, .act, .go, .left, .act, .go, .left, .act, .go, .act, .go, .go, .act, .go, .go,
   .left, .act, .go, .act, .go, .act, .go, .go, .go, .right, .act, .go, .act, .go, .right, .go,
   .act, .go, .go, .go, .go, .go, .go, .right, .go, .go, .go, .leave]

/-- Its next one, up to where it holds a region's lock -/
def allocWithLock : List Event :=
  [.call .alloc, .left, .act, .go, .right, .act, .go, .act, .go, .left, .act, .go, .go, .go,
   .left, .left, .left, .left, .act, .go, .right, .act, .go, .act, .go, .left, .right, .right,
   .first, .left, .act, .go, .act, .go, .go, .act, .go, .go]

/-- A handler's release, which is deferred -/
def freeDeferred : List Event :=
  [.signal .free, .left, .go, .left, .act, .go, .left, .act, .go, .left, .act, .go, .act, .go,
   .go, .go, .leave]

/-- The rest of the allocation, up to where it has made the release -/
def allocDrained : List Event :=
  [.left, .act, .go, .act, .go, .act, .go, .go, .go, .go, .left, .go, .right, .go, .right, .go,
   .go, .left, .go, .act, .go, .go, .go, .go, .right, .go, .go, .go, .act, .go, .right, .act, .go,
   .right, .act, .go, .act, .go, .act, .go, .act, .go, .go, .left, .act, .go, .right, .act, .go,
   .act, .go, .left, .left, .act]

theorem signals_nest_deferred : ∃ n, Run Nest.step Nest.Meets (initial true) n ∧
    n.released = [2] ∧ n.Safe := by
  obtain ⟨n, run, released⟩ : ∃ n, Run Nest.step Nest.Meets (initial true) n ∧ n.released = [2] :=
    Run.exists_exec (firstAlloc ++ allocWithLock ++ freeDeferred ++ allocDrained)
      (by decide +kernel)
  exact ⟨n, run, released, signals_nest run⟩

/-- An allocation without the cache, from a branch to a region's lock -/
def uncachedToLock : List Event :=
  [.right, .act, .go, .left, .act, .go, .go, .go, .left, .left, .right, .right, .right, .first,
   .right, .act, .go, .go, .go]

/-- A thread's first allocation has no counters: interrupted with a region's lock
held, it leaves the handler's allocation waiting for its own thread. -/
theorem first_call_waits : ∃ n, Run Nest.step (fun _ _ => True) (initial true) n ∧ ¬ n.Safe := by
  let lock : Lock := .regionLock ⟨0, by decide⟩
  have found : ∃ n, Run Nest.step (fun _ _ => True) (initial true) n ∧
      (n.frames.map fun f => (f.code.head, f.call.hold.locks)) =
        [(some (.lock lock), []), (none, [lock])] := by
    apply Run.exists_exec ([.call .alloc] ++ uncachedToLock ++ [.act, .go, .go, .signal .alloc] ++
      uncachedToLock)
    decide +kernel
  obtain ⟨n, run, seen⟩ := found
  refine ⟨n, run, ?_⟩
  intro safe
  obtain ⟨f, rest, frames, top, others⟩ := List.map_eq_cons_iff.mp seen
  obtain ⟨g, rest', eq, bottom, -⟩ := List.map_eq_cons_iff.mp others
  obtain ⟨next, -⟩ := Prod.mk.inj top
  obtain ⟨-, locks⟩ := Prod.mk.inj bottom
  refine safe.lock f rest _ frames next ?_
  unfold Nest.held
  rw [frames, below_held, eq, below_held, locks]
  exact List.mem_append_right _ (List.mem_append_left _ List.mem_cons_self)

end Nest

end WeaveC.Locks
