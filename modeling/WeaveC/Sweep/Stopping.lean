import WeaveC.Sweep.StopSpec

/-!
# What the sweeping task keeps

Each step of `stopThreads` and of what follows it keeps the invariant, and so
does every run that settles before each stop.
-/

namespace WeaveC.Sweep

open WeaveC.Library

namespace StopPoint

variable {p : StopPoint}

theorem Building.busy (building : p.Building) : p ≠ .idle := by
  rintro rfl
  exact building

theorem Building.unasked (building : p.Building) : p.Unasked := by
  unfold Unasked
  split
  all_goals trivial

theorem Asking.busy (asking : p.Asking) : p ≠ .idle := by
  rintro rfl
  exact asking

theorem Asking.not_unasked (asking : p.Asking) : ¬ p.Unasked := by
  intro unasked
  unfold Unasked at unasked
  unfold Asking at asking
  split at asking <;> simp_all [Building]

end StopPoint

namespace Process

variable {s s' : Process}

/-! ## What the sweeping task does -/

section Sweeper

variable {a : StopAnswer}

theorem Sound.at_point (sound : s.Sound) (busy : s.point ≠ .idle) {p : StopPoint}
    (flag : p.Unasked → s.stopping = false) : ({ s with point := p } : Process).Sound :=
  { sound with
    sweeper := fun _ => sound.sweeper busy
    flag }

/-! ### The table of targets -/

theorem Invariant.at_building (ok : s.Invariant) (building : s.point.Building) (p : StopPoint) :
    ({ s with point := p } : Process).Sound :=
  ok.sound.at_point building.busy fun _ => ok.sound.flag building.unasked

/-- A listed task that is no target needs no entry. -/
theorem Invariant.build_scan (ok : s.Invariant) {i : Nat} (point : s.point = .build i)
    (taken : s.sweepStep a = some s') : s'.Invariant := by
  have building : s.point.Building := by
    rw [point]
    trivial
  have calm := ok.calm building
  have cover := ok.cover
  simp only [covered, point] at cover
  simp only [sweepStep, point] at taken
  split at taken
  · rename_i none
    obtain rfl := Option.some.inj taken
    refine .of_building { ok.at_building building .resetCount with } trivial calm
      StopPoint.noConfusion (fun k t below listed => ?_) fun _ _ => StopPoint.noConfusion
    exact cover k t (lt_of_lt_of_le below (List.getElem?_eq_none_iff.mp none)) listed
  · rename_i u found
    obtain rfl := Option.some.inj taken
    by_cases target : u ≠ s.sweeper ∧ u ∉ s.workers
    · rw [if_pos target]
      exact .of_building { ok.at_building building (.buildSp i) with } trivial calm
        StopPoint.noConfusion cover fun _ _ => StopPoint.noConfusion
    · rw [if_neg target]
      refine .of_building { ok.at_building building (.build (i + 1)) with } trivial calm
        StopPoint.noConfusion (fun k t below listed wanted => ?_) fun _ _ => StopPoint.noConfusion
      rcases Nat.lt_succ_iff_lt_or_eq.mp below with early | rfl
      · exact cover k t early listed wanted
      · obtain rfl := Option.some.inj (found.symm.trans listed)
        exact absurd wanted target

/-- An entry is written before it is counted. -/
theorem Invariant.build_task (ok : s.Invariant) {i : Nat} (point : s.point = .buildTask i) :
    ({ s with
      stopped := Function.update s.stopped s.stopTargets ((s.tasks[i]?).getD 0)
      point := .buildCount i } : Process).Invariant := by
  have building : s.point.Building := by
    rw [point]
    trivial
  have cover := ok.cover
  simp only [covered, point] at cover
  refine .of_building { ok.at_building building (.buildCount i) with } trivial (ok.calm building)
    StopPoint.noConfusion (fun k t below listed target => ?_) fun k t here listed => ?_
  · rcases cover k t below listed target with gone | ⟨j, early, entry⟩
    · exact .inl gone
    · refine .inr ⟨j, early, ?_⟩
      change Function.update s.stopped s.stopTargets _ j = t
      rw [Function.update_of_ne (Nat.ne_of_lt early)]
      exact entry
  · obtain rfl := StopPoint.buildCount.inj here
    change s.tasks[i]? = some t at listed
    change Function.update s.stopped s.stopTargets ((s.tasks[i]?).getD 0) s.stopTargets = t
    rw [Function.update_self, listed]
    rfl

/-- The counted entry covers its task. -/
theorem Invariant.build_count (ok : s.Invariant) {i : Nat} (point : s.point = .buildCount i) :
    ({ s with stopTargets := s.stopTargets + 1, point := .build (i + 1) } : Process).Invariant := by
  have building : s.point.Building := by
    rw [point]
    trivial
  have cover := ok.cover
  simp only [covered, point] at cover
  refine .of_building { ok.at_building building (.build (i + 1)) with } trivial (ok.calm building)
    StopPoint.noConfusion (fun k t below listed target => ?_) fun _ _ => StopPoint.noConfusion
  rcases Nat.lt_succ_iff_lt_or_eq.mp below with early | rfl
  · refine (cover k t early listed target).imp_right ?_
    rintro ⟨j, early, entry⟩
    exact ⟨j, Nat.lt_succ_of_lt early, entry⟩
  · exact .inr ⟨s.stopTargets, Nat.lt_succ_self _, ok.last k t point listed⟩

/-- A calm handler answers the stop that begins, and none has answered yet. -/
theorem Asked.of_calm (calm : ∀ t, s.Calm t) (count : s.stoppedCount = 0)
    (answered : s.answered = []) : s.Asked where
  handler t := by
    have here := calm t
    unfold Calm at here
    unfold Answering
    split at here
    all_goals simp_all
  answered t mem := by
    rw [answered] at mem
    exact absurd mem (by simp)
  once := by
    rw [answered]
    exact List.nodup_nil
  count := by
    rw [count, answered]
    rfl

theorem Invariant.set_stopping (ok : s.Invariant) (point : s.point = .setStopping) :
    ({ s with stopping := true, point := .send 0 0 } : Process).Invariant := by
  have building : s.point.Building := by
    rw [point]
    trivial
  have cover := ok.cover
  simp only [covered, point] at cover
  obtain ⟨count, answered⟩ := ok.start point
  refine .of_asking
    { ok.sound.at_point (p := .send 0 0) building.busy fun unasked => unasked.elim with
      flag := fun unasked => unasked.elim }
    trivial { Asked.of_calm (ok.calm building) count answered with } cover ⟨?_, Nat.zero_le _⟩
    trivial trivial trivial
  simp [targetsBelow]

/-- A step while the table is made, or that ends it. -/
theorem Invariant.build_step (ok : s.Invariant) (building : s.point.Building)
    (taken : s.sweepStep a = some s') : s'.Invariant := by
  have calm := ok.calm building
  have cover := ok.cover
  cases point : s.point with
  | build i => exact ok.build_scan point taken
  | buildSp i =>
      simp only [sweepStep, point] at taken
      simp only [covered, point] at cover
      obtain rfl := Option.some.inj taken
      exact .of_building { ok.at_building building (.buildContext i) with } trivial calm
        StopPoint.noConfusion cover fun _ _ => StopPoint.noConfusion
  | buildContext i =>
      simp only [sweepStep, point] at taken
      simp only [covered, point] at cover
      obtain rfl := Option.some.inj taken
      exact .of_building { ok.at_building building (.buildTask i) with } trivial calm
        StopPoint.noConfusion cover fun _ _ => StopPoint.noConfusion
  | buildTask i =>
      simp only [sweepStep, point] at taken
      obtain rfl := Option.some.inj taken
      exact ok.build_task point
  | buildCount i =>
      simp only [sweepStep, point] at taken
      obtain rfl := Option.some.inj taken
      exact ok.build_count point
  | resetCount =>
      simp only [sweepStep, point] at taken
      simp only [covered, point] at cover
      obtain rfl := Option.some.inj taken
      exact .of_building { ok.at_building building .setStopping with } trivial calm
        (fun _ => ⟨rfl, rfl⟩) cover fun _ _ => StopPoint.noConfusion
  | setStopping =>
      simp only [sweepStep, point] at taken
      obtain rfl := Option.some.inj taken
      exact ok.set_stopping point
  | idle | listing | begin | send i sent | unsent i sent | poll sent | check i sent
  | probe i sent | drop i sent | collect i | success | shortcut | failed | decided signalled
  | resumeStopping | resumeGeneration =>
      rw [point] at building
      exact building.elim

/-! ### The wait -/

theorem targetsBelow_succ (s : Process) (n : Nat) :
    s.targetsBelow (n + 1) = s.targetsBelow n + if s.stopped n ≠ 0 then 1 else 0 := by
  unfold targetsBelow
  rw [Finset.range_add_one, Finset.filter_insert]
  split_ifs
  · exact Finset.card_insert_of_notMem (by simp)
  · rfl

/-- A target given up is no longer counted. -/
theorem targetsBelow_giveUp (s : Process) (i n : Nat) :
    ({ s with stopped := Function.update s.stopped i 0 } : Process).targetsBelow n =
      s.targetsBelow n - if i < n ∧ s.stopped i ≠ 0 then 1 else 0 := by
  have same : ((Finset.range n).filter fun k => Function.update s.stopped i 0 k ≠ 0) =
      ((Finset.range n).filter fun k => s.stopped k ≠ 0).erase i := by
    ext k
    simp only [Finset.mem_filter, Finset.mem_range, Finset.mem_erase]
    by_cases here : k = i
    · subst here
      simp
    · simp [here]
  change ((Finset.range n).filter fun k => Function.update s.stopped i 0 k ≠ 0).card = _
  rw [same, targetsBelow]
  split_ifs with counted
  · exact Finset.card_erase_of_mem (by simp [counted])
  · rw [Finset.erase_eq_of_notMem (by simpa using counted)]
    rfl

/-- A target whose task has ended is given up. -/
theorem Asked.giveUp (asked : s.Asked) {i : Nat} (out : (s.task (s.stopped i)).handler = .out) :
    Asked { s with stopped := Function.update s.stopped i 0 } := by
  have keep {t j : Nat} (inside : (s.task t).handler ≠ .out) (entry : s.stopped j = t) :
      Function.update s.stopped i 0 j = t := by
    have other : j ≠ i := by
      rintro rfl
      rw [entry] at out
      exact inside out
    rw [Function.update_of_ne other]
    exact entry
  refine { asked with handler := fun t => ?_, answered := fun t mem => ?_ }
  · have here := asked.handler t
    unfold Answering at here ⊢
    simp only
    split at here
    all_goals rename_i point
    all_goals try exact here
    · exact ⟨here.1, here.2.1, fun below => keep (by simp [point]) (here.2.2 below)⟩
    all_goals
      first
      | exact ⟨here.1, here.2.1, keep (by simp [point]) here.2.2⟩
      | exact ⟨here.1, here.2.1, keep (by simp [point]) here.2.2.1, here.2.2.2⟩
  · obtain ⟨counted, j, below, entry, sp⟩ := asked.answered t mem
    exact ⟨counted, j, below, keep (by simp [counted]) entry, sp⟩

theorem cover_giveUp {i : Nat} (gone : s.Gone (s.stopped i)) {t : Nat}
    (covered : s.Gone t ∨ ∃ j, j < s.stopTargets ∧ s.stopped j = t) :
    s.Gone t ∨ ∃ j, j < s.stopTargets ∧ Function.update s.stopped i 0 j = t := by
  rcases covered with ended | ⟨j, below, entry⟩
  · exact .inl ended
  · by_cases same : j = i
    · subst same
      rw [entry] at gone
      exact .inl gone
    · refine .inr ⟨j, below, ?_⟩
      rw [Function.update_of_ne same]
      exact entry

/-- As many answers as targets are an answer of every target. -/
theorem Asked.all (asked : s.Asked) (sound : s.Sound)
    (enough : s.targetsBelow s.stopTargets ≤ s.stoppedCount) (k : Nat) (below : k < s.stopTargets)
    (some : s.stopped k ≠ 0) :
    s.stopped k ∈ s.answered ∧ ∀ j, j < s.stopTargets → s.stopped j = s.stopped k → j = k := by
  let K := (Finset.range s.stopTargets).filter fun i => s.stopped i ≠ 0
  have sub : s.answered.toFinset ⊆ K.image s.stopped := by
    intro t mem
    obtain ⟨counted, j, below, entry, -⟩ := asked.answered t (List.mem_toFinset.mp mem)
    refine Finset.mem_image.mpr ⟨j, Finset.mem_filter.mpr ⟨Finset.mem_range.mpr below, ?_⟩, entry⟩
    rw [entry]
    rintro rfl
    exact absurd (sound.zero.symm.trans (sound.alive 0 (by simp [counted])).1) (by simp)
  have card : s.answered.toFinset.card = s.stoppedCount := by
    rw [List.toFinset_card_of_nodup asked.once, asked.count]
  have eq := Finset.eq_of_subset_of_card_le sub
    (Finset.card_image_le.trans (enough.trans card.ge))
  have entry {j : Nat} (below : j < s.stopTargets) (some : s.stopped j ≠ 0) : j ∈ K :=
    Finset.mem_filter.mpr ⟨Finset.mem_range.mpr below, some⟩
  have once : Set.InjOn s.stopped K := by
    refine Finset.injOn_of_card_image_eq (Nat.le_antisymm Finset.card_image_le ?_)
    rw [← eq, card]
    exact enough
  constructor
  · have mem := Finset.mem_image_of_mem s.stopped (entry below some)
    rw [← eq] at mem
    exact List.mem_toFinset.mp mem
  · intro j below' same
    exact once (entry below' (same ▸ some)) (entry below some) same

/-- The dead take no signal. -/
theorem Sound.dead (sound : s.Sound) {t : Nat} (dead : (s.task t).alive ≠ true) :
    (s.task t).handler = .out ∧ (s.task t).pending = false ∧ s.Gone t := by
  refine ⟨?_, ?_, .inl (by simpa using dead)⟩
  · by_contra inside
    exact dead (sound.alive t inside).1
  · by_contra pending
    exact dead (sound.pending t (by simpa using pending))

theorem covered_of_asking (asking : s.point.Asking) : s.covered = s.tasks.length := by
  unfold covered
  unfold StopPoint.Asking at asking
  split at asking <;> simp_all

theorem Invariant.at_asking (ok : s.Invariant) (asking : s.point.Asking) {p : StopPoint}
    (next : p.Asking) : ({ s with point := p } : Process).Sound :=
  ok.sound.at_point asking.busy fun unasked => absurd unasked next.not_unasked

/-- Every target has its entry. -/
theorem Invariant.listed (ok : s.Invariant) (asking : s.point.Asking) {k t : Nat}
    (below : k < s.tasks.length) (listed : s.tasks[k]? = some t) (target : s.Target t) :
    s.Gone t ∨ ∃ j, j < s.stopTargets ∧ s.stopped j = t := by
  rw [← covered_of_asking asking] at below
  exact ok.cover k t below listed target

/-- Where a stop that waits only goes on, what has been told to it stays. -/
theorem Invariant.goes_on (ok : s.Invariant) (asking : s.point.Asking) {p : StopPoint}
    (next : p.Asking) (sent : ({ s with point := p } : Process).SentOk)
    (absent : ({ s with point := p } : Process).AbsentOk)
    (full : ({ s with point := p } : Process).AnsweredOk)
    (recorded : ({ s with point := p } : Process).StacksOk) :
    ({ s with point := p } : Process).Invariant := by
  refine .of_asking (ok.at_asking asking next) next { ok.asked asking with }
    (fun k t below listed target => ?_) sent absent full recorded
  rw [covered_of_asking (s := { s with point := p }) next] at below
  exact ok.listed asking below listed target

/-- The wait has run out. -/
theorem Invariant.fails (ok : s.Invariant) (asking : s.point.Asking) :
    ({ s with point := .failed } : Process).Invariant :=
  .of_sound (ok.sound.at_point asking.busy fun unasked => unasked.elim) id id

/-- Where the entry of a task that has ended is cleared. -/
theorem Invariant.gives_up (ok : s.Invariant) (asking : s.point.Asking) {i : Nat} {p : StopPoint}
    (next : p.Asking) (out : (s.task (s.stopped i)).handler = .out) (gone : s.Gone (s.stopped i))
    (sent : ({ s with stopped := Function.update s.stopped i 0, point := p } : Process).SentOk)
    (absent : ({ s with stopped := Function.update s.stopped i 0, point := p } : Process).AbsentOk)
    (full : ({ s with stopped := Function.update s.stopped i 0, point := p } : Process).AnsweredOk)
    (recorded :
      ({ s with stopped := Function.update s.stopped i 0, point := p } : Process).StacksOk) :
    ({ s with stopped := Function.update s.stopped i 0, point := p } : Process).Invariant := by
  refine .of_asking { ok.at_asking asking next with } next { (ok.asked asking).giveUp out with }
    (fun k t below listed target => ?_) sent absent full recorded
  rw [covered_of_asking (s := { s with stopped := _, point := p }) next] at below
  exact cover_giveUp gone (ok.listed asking below listed target)

/-- With a signal sent to the task. -/
def signalled (s : Process) (t : Nat) : Process :=
  s.setTask t { s.task t with pending := true }

theorem signalled_task (s : Process) (t u : Nat) :
    (s.signalled t).task u =
      { s.task u with pending := decide (u = t) || (s.task u).pending } := by
  by_cases same : u = t
  · subst same
    simp [signalled]
  · simp [signalled, setTask_ne _ _ same, same]

theorem Sound.signalled (sound : s.Sound) {t : Nat} (alive : (s.task t).alive = true) :
    (s.signalled t).Sound where
  alive u inside := by
    rw [signalled_task] at inside ⊢
    exact sound.alive u inside
  pending u pending := by
    rw [signalled_task] at pending ⊢
    rcases (Bool.or_eq_true _ _).mp pending with same | pending
    · exact of_decide_eq_true same ▸ alive
    · exact sound.pending u pending
  life u := by
    rw [signalled_task]
    exact sound.life u
  zero := by
    rw [signalled_task]
    exact sound.zero
  workers := by
    refine ⟨sound.workers.1, fun u mem => ?_⟩
    rw [signalled_task]
    exact sound.workers.2 u mem
  sweeper busy := by
    rw [signalled_task]
    exact sound.sweeper busy
  flag := sound.flag

theorem Asked.signalled (asked : s.Asked) (t : Nat) : (s.signalled t).Asked where
  handler u := by
    have here := asked.handler u
    unfold Answering at here ⊢
    rw [signalled_task]
    exact here
  answered u mem := by
    rw [signalled_task]
    exact asked.answered u mem
  once := asked.once
  count := asked.count

theorem Gone.signalled {t u : Nat} (gone : s.Gone u) : (s.signalled t).Gone u := by
  unfold Gone
  rw [signalled_task]
  exact gone

theorem Invariant.signals (ok : s.Invariant) {i n : Nat} (point : s.point = .send i n)
    (below : i < s.stopTargets) (alive : (s.task (s.stopped i)).alive = true) :
    ({ s.signalled (s.stopped i) with point := .send (i + 1) (n + 1) } : Process).Invariant := by
  have asking : s.point.Asking := by
    rw [point]
    trivial
  have sent := ok.sent
  simp only [SentOk, point] at sent
  have named : s.stopped i ≠ 0 := by
    intro zero
    rw [zero] at alive
    exact absurd (ok.sound.zero.symm.trans alive) (by simp)
  have sound := (ok.sound.signalled alive).at_point (p := .send (i + 1) (n + 1)) asking.busy
    fun unasked => unasked.elim
  refine .of_asking sound trivial { (ok.asked asking).signalled (s.stopped i) with }
    (fun k t below listed target => ?_) ⟨?_, below⟩ trivial trivial trivial
  · exact (ok.listed asking below listed target).imp_left Gone.signalled
  · change n + 1 = s.targetsBelow (i + 1)
    rw [targetsBelow_succ, if_pos named, sent.1]

/-- The world gets the stack pointers of a target that has answered. -/
theorem Invariant.collects (ok : s.Invariant) {i : Nat} (point : s.point = .collect i)
    (below : i < s.stopTargets) :
    ({ s with worldStacks := s.worldStacks ++ s.stackOf i, point := .collect (i + 1) } :
      Process).Invariant := by
  have asking : s.point.Asking := by
    rw [point]
    trivial
  have asked := ok.asked asking
  have full := ok.full
  have recorded := ok.recorded
  simp only [AnsweredOk, point] at full
  simp only [StacksOk, point] at recorded
  refine .of_asking { ok.at_asking asking (p := .collect (i + 1)) trivial with } trivial
    { asked with } (fun k t => ok.listed asking) trivial trivial full
    fun k early below some => List.mem_append.mpr ?_
  rcases Nat.lt_succ_iff_lt_or_eq.mp early with earlier | rfl
  · exact .inl (recorded k earlier below some)
  · right
    obtain ⟨answered, once⟩ := full k below some
    obtain ⟨counted, j, below', entry, sp⟩ := asked.answered _ answered
    obtain rfl := once j below' entry
    have here : s.stoppedSp j ≠ 0 := by
      rw [sp]
      exact (ok.sound.alive _ (by simp [counted])).2
    unfold stackOf
    rw [if_neg (by simp [here, show s.stopped j ≠ 0 from some])]
    split_ifs
    · exact List.mem_cons_self
    · exact List.mem_singleton_self _

/-- A step of a stop that waits. -/
theorem Invariant.ask_step (ok : s.Invariant) (asking : s.point.Asking)
    (taken : s.sweepStep a = some s') : s'.Invariant := by
  have sound := ok.sound
  have sent := ok.sent
  have absent := ok.absent
  have full := ok.full
  have recorded := ok.recorded
  unfold sweepStep at taken
  cases point : s.point with
  | send i n =>
      simp only [point] at taken
      simp only [SentOk, point] at sent
      split_ifs at taken with below alive
      · obtain rfl := Option.some.inj taken
        exact ok.signals point below alive
      · obtain rfl := Option.some.inj taken
        exact ok.goes_on asking trivial ⟨sent.1, below⟩ (sound.dead alive) trivial trivial
      · obtain rfl := Option.some.inj taken
        have all : i = s.stopTargets := Nat.le_antisymm sent.2 (Nat.not_lt.mp below)
        exact ok.goes_on asking trivial (all ▸ sent.1) trivial trivial trivial
  | unsent i n =>
      simp only [point] at taken
      simp only [SentOk, point] at sent
      simp only [AbsentOk, point] at absent
      obtain rfl := Option.some.inj taken
      refine ok.gives_up asking trivial absent.1 absent.2.2 ⟨?_, sent.2⟩ trivial trivial trivial
      change n =
        ({ s with stopped := Function.update s.stopped i 0 } : Process).targetsBelow (i + 1)
      rw [targetsBelow_giveUp, targetsBelow_succ, sent.1]
      split_ifs <;> simp_all
  | poll n =>
      simp only [point] at taken
      simp only [SentOk, point] at sent
      obtain rfl := Option.some.inj taken
      split_ifs with enough late
      · exact ok.goes_on asking trivial trivial trivial ((ok.asked asking).all sound (sent ▸ enough))
          fun k early => absurd early (Nat.not_lt_zero k)
      · exact ok.fails asking
      · exact ok.goes_on asking trivial sent trivial trivial trivial
  | check i n =>
      simp only [point] at taken
      simp only [SentOk, point] at sent
      obtain rfl := Option.some.inj taken
      split_ifs with below unanswered
      · exact ok.goes_on asking trivial ⟨sent, below, unanswered.1⟩ trivial trivial trivial
      · exact ok.goes_on asking trivial sent trivial trivial trivial
      · exact ok.goes_on asking trivial sent trivial trivial trivial
  | probe i n =>
      simp only [point] at taken
      simp only [SentOk, point] at sent
      obtain rfl := Option.some.inj taken
      split_ifs with alive
      · exact ok.goes_on asking trivial sent.1 trivial trivial trivial
      · exact ok.goes_on asking trivial sent (sound.dead alive) trivial trivial
  | drop i n =>
      simp only [point] at taken
      simp only [SentOk, point] at sent
      simp only [AbsentOk, point] at absent
      obtain rfl := Option.some.inj taken
      refine ok.gives_up asking trivial absent.1 absent.2.2 ?_ trivial trivial trivial
      change n - 1 =
        ({ s with stopped := Function.update s.stopped i 0 } : Process).targetsBelow s.stopTargets
      rw [targetsBelow_giveUp, if_pos sent.2, sent.1]
  | collect i =>
      simp only [point] at taken
      simp only [AnsweredOk, point] at full
      simp only [StacksOk, point] at recorded
      split_ifs at taken with below
      · obtain rfl := Option.some.inj taken
        exact ok.collects point below
      · obtain rfl := Option.some.inj taken
        exact ok.goes_on asking trivial trivial trivial full fun k early =>
          recorded k (Nat.lt_of_lt_of_le early (Nat.not_lt.mp below)) early
  | success =>
      simp only [point] at taken
      simp only [AnsweredOk, point] at full
      simp only [StacksOk, point] at recorded
      obtain rfl := Option.some.inj taken
      exact .of_asking { ok.at_asking asking (p := .decided true) trivial with } trivial
        { ok.asked asking with } (fun k t => ok.listed asking) trivial trivial full recorded
  | decided signalled =>
      simp only [point] at taken
      obtain rfl := Option.some.inj taken
      exact .of_sound (sound.at_point asking.busy fun unasked => unasked.elim) id id
  | idle | listing | begin | build i | buildSp i | buildContext i | buildTask i
  | buildCount i | resetCount | setStopping | shortcut | failed | resumeStopping
  | resumeGeneration =>
      rw [point] at asking
      exact asking.elim

/-- The step that starts to make the table, with every handler settled. -/
theorem Invariant.begin_step (ok : s.Invariant) (point : s.point = .begin)
    (settled : ∀ t, s.Calm t) (taken : s.sweepStep a = some s') : s'.Invariant := by
  have busy : s.point ≠ .idle := by simp [point]
  have unset : s.stopping = false := by
    refine ok.sound.flag ?_
    rw [point]
    trivial
  simp only [sweepStep, point] at taken
  obtain rfl := Option.some.inj taken
  exact .of_building { ok.sound.at_point (p := .build 0) busy fun _ => unset with } trivial settled
    (fun here => absurd here (by simp)) (fun k _ below => absurd below (Nat.not_lt_zero k))
    fun _ _ here => absurd here (by simp)

/-- The steps before and after a stop that signals. -/
theorem Invariant.other_step (ok : s.Invariant) (built : ¬ s.point.Building)
    (unasked : ¬ s.point.Asking) (later : s.point ≠ .begin)
    (taken : s.sweepStep a = some s') : s'.Invariant := by
  have sound := ok.sound
  have unset (unasked : s.point.Unasked) : s.stopping = false := sound.flag unasked
  unfold sweepStep at taken
  cases point : s.point with
  | listing =>
      have stopping := unset (by rw [point]; trivial)
      simp only [point] at taken
      obtain rfl := Option.some.inj taken
      refine .of_sound
        { sound.at_point (by simp [point]) fun _ => stopping with
          life := fun _ => Nat.le_refl _ } ?_ ?_
      all_goals
        simp only
        split_ifs <;> exact id
  | shortcut =>
      have stopping := unset (by rw [point]; trivial)
      simp only [point] at taken
      obtain rfl := Option.some.inj taken
      exact .of_sound { sound.at_point (p := .decided false) (by simp [point]) fun _ => stopping with }
        id id
  | failed =>
      simp only [point] at taken
      obtain rfl := Option.some.inj taken
      exact .of_sound
        { sound.at_point (p := .resumeStopping) (by simp [point]) fun unasked => unasked.elim with }
        id id
  | decided signalled =>
      simp only [point] at taken
      obtain rfl := Option.some.inj taken
      exact .of_sound
        { sound.at_point (p := .resumeStopping) (by simp [point]) fun unasked => unasked.elim with }
        id id
  | resumeStopping =>
      simp only [point] at taken
      obtain rfl := Option.some.inj taken
      exact .of_sound
        { sound with
          sweeper := fun _ => sound.sweeper (by simp [point])
          flag := fun _ => rfl } id id
  | resumeGeneration =>
      have stopping := unset (by rw [point]; trivial)
      simp only [point] at taken
      obtain rfl := Option.some.inj taken
      exact .of_sound
        { sound with
          sweeper := fun busy => absurd rfl busy
          flag := fun _ => stopping } id id
  | idle => simp [point] at taken
  | begin => exact absurd point later
  | build i | buildSp i | buildContext i | buildTask i | buildCount i | resetCount
  | setStopping =>
      rw [point] at built
      exact absurd trivial built
  | send i n | unsent i n | poll n | check i n | probe i n | drop i n | collect i | success =>
      rw [point] at unasked
      exact absurd trivial unasked

end Sweeper

/-! ## Every run -/

theorem Invariant.sweep {t : Nat} (ok : s.Invariant) (running : s.Running t)
    (idle : s.point = .idle) :
    ({ s with sweeper := t, point := .listing } : Process).Invariant := by
  have stopping : s.stopping = false := by
    refine ok.sound.flag ?_
    rw [idle]
    trivial
  exact .of_sound
    { ok.sound with
      sweeper := fun _ => ⟨running.1, running.2.2.1⟩
      flag := fun _ => stopping } id id

theorem Invariant.step {e : StopEvent} (ok : s.Invariant) (settled : s.Settled e)
    (taken : s.step e = some s') : s'.Invariant := by
  cases e with
  | create parent child =>
      simp only [Process.step] at taken
      split_ifs at taken with allowed
      obtain rfl := Option.some.inj taken
      exact ok.born allowed.2.1 allowed.2.2
  | worker child =>
      simp only [Process.step] at taken
      split_ifs at taken with allowed
      obtain rfl := Option.some.inj taken
      exact ok.worker allowed.1 allowed.2.1 allowed.2.2
  | exit t =>
      simp only [Process.step] at taken
      split_ifs at taken with running
      obtain rfl := Option.some.inj taken
      exact ok.exit running
  | deliver t frame context =>
      simp only [Process.step] at taken
      split_ifs at taken with allowed
      obtain rfl := Option.some.inj taken
      exact ok.deliver allowed.1 allowed.2.1 allowed.2.2.1 allowed.2.2.2
  | handler t => exact ok.handler taken
  | sweep t =>
      simp only [Process.step] at taken
      split_ifs at taken with allowed
      obtain rfl := Option.some.inj taken
      exact ok.sweep allowed.1 allowed.2
  | next a =>
      simp only [Process.step] at taken
      split_ifs at taken with here
      by_cases begins : s.point = .begin
      · exact ok.begin_step begins (settled begins ⟨a, rfl⟩) taken
      by_cases building : s.point.Building
      · exact ok.build_step building taken
      by_cases asking : s.point.Asking
      · exact ok.ask_step asking taken
      · exact ok.other_step building asking begins taken

theorem invariant_initial : Process.initial.Invariant := by
  refine .of_sound ?_ id id
  exact
    { alive := fun t inside => absurd rfl inside
      pending := fun t pending => absurd pending (by simp [Process.initial])
      life := fun t => Nat.le_refl _
      zero := by simp [Process.initial]
      workers := ⟨List.nodup_nil, fun t mem => absurd mem (by simp [Process.initial])⟩
      sweeper := fun busy => absurd rfl busy
      flag := fun _ => rfl }

/-- A target that has not ended is held when the wait is over. -/
theorem Invariant.held (ok : s.Invariant) (signalled : s.point = .success ∨ s.point = .decided true)
    {t : Nat} (listed : t ∈ s.tasks) (target : s.Target t) (exists' : ¬ s.Gone t) : s.Held t := by
  have asking : s.point.Asking := by
    rcases signalled with point | point <;> rw [point] <;> trivial
  have whole : s.covered = s.tasks.length := by
    rcases signalled with point | point <;> rw [covered, point]
  have full := ok.full
  have recorded := ok.recorded
  obtain ⟨k, found⟩ := List.mem_iff_getElem?.mp listed
  have below : k < s.covered := by
    rw [whole]
    exact (List.getElem?_eq_some_iff.mp found).1
  obtain ⟨j, below', entry⟩ := (ok.cover k t below found target).resolve_left exists'
  have named : s.stopped j ≠ 0 := by
    rw [entry]
    rintro rfl
    exact exists' (.inl ok.sound.zero)
  have answer : (s.stopped j ∈ s.answered ∧
      ∀ j', j' < s.stopTargets → s.stopped j' = s.stopped j → j' = j) ∧
      s.stoppedSp j ∈ s.worldStacks := by
    unfold AnsweredOk at full
    unfold StacksOk at recorded
    rcases signalled with point | point
    · rw [point] at full recorded
      exact ⟨full j below' named, recorded j below' named⟩
    · rw [point] at full recorded
      exact ⟨full j below' named, recorded j below' named⟩
  obtain ⟨⟨answered, once⟩, stack⟩ := answer
  obtain ⟨counted, j', below'', entry', sp⟩ := (ok.asked asking).answered _ answered
  obtain rfl := once j' below'' entry'
  rw [entry] at counted sp
  refine ⟨counted, j', below', entry, sp, ?_⟩
  rw [← sp]
  exact stack

end Process

end WeaveC.Sweep
