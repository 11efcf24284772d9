import WeaveC.Locks.System

/-!
# No circular wait

What a thread holds is in order and guarded, so a thread that waits for a lock
waits for one that is further up; a stopped thread holds nothing that the sweep
still takes, and the sweep waits only for workers, which hold no lock that a
stopped thread waits for.
-/

namespace WeaveC.Locks

open WeaveC.Library

namespace Hold

/-- What is true of whatever a thread can hold. -/
structure Sound (h : Hold) : Prop where
  ordered : h.locks.Pairwise fun k l => l.rank < k.rank
  guarded : .internalLock ∈ h.locks →
    .sweepLock ∈ h.locks ∨ .initLock ∈ h.locks ∨ .hugeLock ∈ h.locks
  work : .workLock ∈ h.locks → h.mode = .stopping ∨ h.mode.Worker
  worker : h.mode.Worker → ∀ l ∈ h.locks, l = .workLock
  stopping : h.mode = .stopping → ∀ l ∈ world ++ [.sweepLock], l ∈ h.locks
  child : h.mode = .child → .sweepLock ∈ h.locks

theorem sound_nothing : nothing.Sound where
  ordered := .nil
  guarded := nofun
  work := nofun
  worker _ := nofun
  stopping := nofun
  child := nofun

variable {h : Hold} {l : Lock}

theorem Sound.lock (sound : h.Sound) (may : h.MayLock l) :
    Sound { h with locks := l :: h.locks } := by
  obtain ⟨locks, mode⟩ := h
  obtain ⟨below, may⟩ := may
  refine ⟨List.pairwise_cons.mpr ⟨below, sound.ordered⟩, ?_, ?_, ?_, ?_, ?_⟩
  · intro mem
    rcases List.mem_cons.mp mem with rfl | mem
    · have guard : .sweepLock ∈ locks ∨ .initLock ∈ locks ∨ .hugeLock ∈ locks := by
        cases mode with
        | plain => exact may.2 rfl
        | stopping => exact .inl (sound.stopping rfl _ (List.mem_append_right _ List.mem_cons_self))
        | child => exact .inl (sound.child rfl)
        | starting => exact may.elim
        | idle | working => cases may
      exact guard.imp (List.mem_cons_of_mem _) (.imp (List.mem_cons_of_mem _) (List.mem_cons_of_mem _))
    · exact (sound.guarded mem).imp (List.mem_cons_of_mem _)
        (.imp (List.mem_cons_of_mem _) (List.mem_cons_of_mem _))
  · intro mem
    rcases List.mem_cons.mp mem with rfl | mem
    · cases mode with
      | plain => exact absurd rfl may.1
      | stopping => exact .inl rfl
      | child => obtain ⟨_, no⟩ := may; cases no
      | starting => exact may.elim
      | idle => exact .inr (.inr (.inl rfl))
      | working => exact .inr (.inr (.inr rfl))
    · exact sound.work mem
  · intro worker k mem
    rcases List.mem_cons.mp mem with rfl | mem
    · rcases worker with rfl | rfl | rfl
      · exact may.elim
      · exact may
      · exact may
    · exact sound.worker worker k mem
  · intro stopping k mem
    exact List.mem_cons_of_mem l (sound.stopping stopping k mem)
  · intro child
    exact List.mem_cons_of_mem l (sound.child child)

theorem Sound.unlock (sound : h.Sound) (may : h.MayUnlock l) :
    Sound { h with locks := h.locks.erase l } := by
  obtain ⟨locks, mode⟩ := h
  obtain ⟨top, may⟩ := may
  cases locks with
  | nil => cases top
  | cons k locks =>
    obtain rfl : k = l := Option.some.inj top
    rw [List.erase_cons_head]
    obtain ⟨above, ordered⟩ := List.pairwise_cons.mp sound.ordered
    -- A lock below the top is still held.
    have stays {j : Lock} (mem : j ∈ k :: locks) (other : j ≠ k) : j ∈ locks :=
      (List.mem_cons.mp mem).resolve_left other
    refine ⟨ordered, ?_, ?_, ?_, ?_, ?_⟩
    · intro mem
      have high : Lock.internalLock.rank < k.rank := above _ mem
      have other {j : Lock} (low : j.rank ≤ Lock.internalLock.rank) : j ≠ k := by
        rintro rfl
        exact absurd high (Nat.not_lt.mpr low)
      rcases sound.guarded (List.mem_cons_of_mem k mem) with held | held | held
      · exact .inl (stays held (other (by decide)))
      · exact .inr (.inl (stays held (other (by decide))))
      · exact .inr (.inr (stays held (other (by decide))))
    · intro mem
      exact sound.work (List.mem_cons_of_mem k mem)
    · intro worker j mem
      exact sound.worker worker j (List.mem_cons_of_mem k mem)
    · rintro rfl j mem
      refine stays (sound.stopping rfl j mem) ?_
      rintro rfl
      have low : j.rank < Lock.internalLock.rank := by
        rcases List.mem_append.mp mem with mem | mem
        · exact (rank_world mem).2
        · obtain rfl := List.mem_singleton.mp mem
          decide
      rcases may with rfl | rfl
      · exact absurd low (by decide)
      · exact absurd low (by decide)
    · rintro rfl
      exact stays (sound.child rfl) (Ne.symm may)

/-- What a thread holds stays sound through every allowed action. -/
theorem Sound.after {a : Action} (sound : h.Sound) (allowed : h.Allowed a) : (h.after a).Sound := by
  have world_sweep : ∀ l ∈ world ++ [Lock.sweepLock], l ≠ .workLock := by
    rintro l mem rfl
    rcases List.mem_append.mp mem with mem | mem
    · exact absurd (rank_world mem).2 (by decide)
    · exact absurd mem (by decide)
  cases a with
  | lock l | tryLock l => exact sound.lock allowed
  | unlock l => exact sound.unlock allowed
  | stopThreads =>
    obtain ⟨-, locks⟩ := allowed
    exact ⟨sound.ordered, sound.guarded, fun _ => .inl rfl, nofun,
      fun _ l mem => locks ▸ mem, nofun⟩
  | resumeThreads =>
    obtain ⟨-, locks⟩ := allowed
    exact ⟨sound.ordered, sound.guarded, fun mem => absurd rfl (world_sweep _ (locks ▸ mem)), nofun,
      nofun, nofun⟩
  | storeThreadId =>
    exact ⟨sound.ordered, sound.guarded, fun _ => .inr (.inr (.inl rfl)),
      fun _ => sound.worker (.inl allowed), nofun, nofun⟩
  | seeRound =>
    exact ⟨sound.ordered, sound.guarded, fun _ => .inr (.inr (.inr rfl)),
      fun _ => sound.worker (.inr (.inl allowed)), nofun, nofun⟩
  | finishRound =>
    exact ⟨sound.ordered, sound.guarded, fun _ => .inr (.inr (.inl rfl)),
      fun _ => sound.worker (.inr (.inr allowed)), nofun, nofun⟩
  | enterChild =>
    obtain ⟨mode, locks⟩ := allowed
    refine ⟨sound.ordered, sound.guarded, ?_, nofun, nofun, ?_⟩
    · intro mem
      have plain := sound.work mem
      rw [mode] at plain
      exact absurd plain (by decide)
    · intro _
      change .sweepLock ∈ h.locks
      rw [locks]
      exact List.mem_append_right _ (by decide)
  | initWorkLock =>
    refine ⟨sound.ordered, sound.guarded, ?_, nofun, nofun, nofun⟩
    intro mem
    have plain := sound.work mem
    rw [show h.mode = .child from allowed] at plain
    exact absurd plain (by decide)
  | _ => exact sound

/-- Two threads' locks apart, what a second one can hold beside the world. -/
theorem Sound.of_world_held (sound : h.Sound) (held : l ∈ h.locks)
    (others : ∀ k ∈ h.locks, k ∉ world ++ [.sweepLock]) : l = .cacheListLock ∨ l = .workLock := by
  cases l with
  | cacheListLock => exact .inl rfl
  | workLock => exact .inr rfl
  | internalLock =>
    rcases sound.guarded held with guard | guard | guard
    · exact absurd (List.mem_append_right world List.mem_cons_self) (others _ guard)
    · exact absurd (by decide) (others _ guard)
    · exact absurd (by decide) (others _ guard)
  | regionLock region =>
    refine absurd (List.mem_append_left _ (List.mem_cons_of_mem _ (List.mem_append_left _ ?_)))
      (others _ held)
    exact List.mem_map_of_mem (List.mem_reverse.mpr (List.mem_finRange region))
  | sweepLock | initLock | spareLock | hugeLock => exact absurd (by decide) (others _ held)

end Hold

/-- What holds of a thread by itself. -/
structure Thread.Sound (th : Thread) : Prop where
  hold : th.hold.Sound
  keeps : th.Alive → ∃ h', Keeps th.hold th.code h'
  fresh : th.status = .fresh → th.hold = Hold.nothing

namespace Thread

variable {th : Thread} {a : Action}

theorem alive_of_running (running : th.status = .running) : th.Alive := .inl running

theorem Sound.allowed (sound : th.Sound) (running : th.status = .running)
    (next : th.code.head = some a) : th.hold.Allowed a := by
  obtain ⟨h', keeps⟩ := sound.keeps (alive_of_running running)
  exact keeps.allowed not_false next

theorem Sound.advance (sound : th.Sound) (running : th.status = .running)
    (next : th.code.head = some a) :
    Sound { th with code := th.code.rest, hold := th.hold.after a } := by
  obtain ⟨h', keeps⟩ := sound.keeps (alive_of_running running)
  refine ⟨sound.hold.after (sound.allowed running next), ?_, ?_⟩
  · intro _
    exact ⟨h', keeps.rest not_false next⟩
  · intro fresh
    rw [running] at fresh
    cases fresh

theorem thaw_hold (th : Thread) : th.thaw.hold = th.hold := by
  unfold thaw
  split
  · rfl
  · rfl

theorem thaw_alive (alive : th.thaw.Alive) : th.Alive := by
  unfold thaw at alive
  split at alive
  · next frozen => exact .inr frozen
  · exact alive

theorem thaw_status_ne (th : Thread) : th.thaw.status ≠ .frozen := by
  unfold thaw
  split
  · exact nofun
  · next other => exact other

theorem thaw_gone (gone : th.thaw.status = .gone) : th.status = .gone := by
  unfold thaw at gone
  split at gone
  · cases gone
  · exact gone

theorem Sound.thaw (sound : th.Sound) : th.thaw.Sound := by
  unfold Thread.thaw
  split
  · next frozen =>
    refine ⟨sound.hold, fun _ => sound.keeps (.inr frozen), ?_⟩
    exact nofun
  · exact sound

theorem leave_hold (th : Thread) : th.leave.hold = th.hold := by
  unfold leave
  split
  · rfl
  · rfl

theorem leave_not_alive (th : Thread) : ¬ th.leave.Alive := by
  unfold leave
  split
  · next fresh =>
    rintro (running | frozen)
    · rw [fresh] at running
      cases running
    · rw [fresh] at frozen
      cases frozen
  · rintro (running | frozen)
    · cases running
    · cases frozen

theorem Sound.leave (sound : th.Sound) : th.leave.Sound := by
  refine ⟨(leave_hold th) ▸ sound.hold, fun alive => absurd alive (leave_not_alive th), ?_⟩
  intro fresh
  rw [leave_hold]
  refine sound.fresh ?_
  unfold Thread.leave at fresh
  split at fresh
  · next fresh => exact fresh
  · cases fresh

theorem loseWork_status (th : Thread) : th.loseWork.status = th.status := by
  unfold loseWork
  split
  · rfl
  · rfl

theorem loseWork_mode (th : Thread) : th.loseWork.hold.mode = th.hold.mode := by
  unfold loseWork
  split
  · rfl
  · rfl

theorem loseWork_of_ne (other : th.status ≠ .gone) : th.loseWork = th := if_neg other

/-- A thread that holds at most the mutex loses all. -/
theorem loseWork_locks (sound : th.hold.Sound) (gone : th.status = .gone)
    (only : ∀ l ∈ th.hold.locks, l = .workLock) : th.loseWork.hold.locks = [] := by
  unfold loseWork
  rw [if_pos gone]
  change th.hold.locks.erase .workLock = []
  have ordered := sound.ordered
  cases held : th.hold.locks with
  | nil => rfl
  | cons k locks =>
    rw [held] at only ordered
    obtain rfl := only k List.mem_cons_self
    rw [List.erase_cons_head]
    refine List.eq_nil_iff_forall_not_mem.mpr fun l mem => ?_
    obtain rfl := only l (List.mem_cons_of_mem _ mem)
    exact absurd ((List.pairwise_cons.mp ordered).1 _ mem) (Nat.lt_irrefl _)

end Thread

namespace State

variable {T : Type} [DecidableEq T] {s s' : State T} {t u : T}

/-- The lock words say what is held, and by one thread each. -/
structure Owned (s : State T) : Prop where
  word : ∀ l, s.word l = true ↔ ∃ t, s.Holds t l
  unique : ∀ {t u l}, s.Holds t l → s.Holds u l → t = u

/-- Who stops, who is stopped, who works and who came out of a fork. -/
structure Roles (s : State T) : Prop where
  stopping : ∀ t, (s.thread t).hold.mode = .stopping ↔ s.stopper = some t
  stopper : ∀ t, s.stopper = some t → (s.thread t).status = .running
  frozen : ∀ t, (s.thread t).status = .frozen →
    ¬ (s.thread t).hold.mode.Worker ∧ s.stopper ≠ none
  worker : ∀ w ∈ s.workers, (s.thread w).hold.mode.Worker
  counted : ∀ w, (s.thread w).Alive → (s.thread w).hold.mode.Worker → w ∈ s.workers
  child : ∀ t, (s.thread t).hold.mode = .child → (s.thread t).status = .running ∧
    ∀ u, u ≠ t → (s.thread u).Alive → (s.thread u).hold.mode = .plain

structure Inv (s : State T) : Prop where
  sound : ∀ t, (s.thread t).Sound
  owned : s.Owned
  roles : s.Roles
  gone : ∀ t, (s.thread t).status = .gone → ∀ l, s.Holds t l →
    l = .workLock ∧ ∃ u, (s.thread u).hold.mode = .child

theorem set_thread (s : State T) (t : T) (th : Thread) (u : T) :
    (s.set t th).thread u = if u = t then th else s.thread u :=
  Function.update_apply s.thread t th u

omit [DecidableEq T] in
theorem Roles.congr (roles : s.Roles)
    (status : ∀ u, (s'.thread u).status = (s.thread u).status)
    (mode : ∀ u, (s'.thread u).hold.mode = (s.thread u).hold.mode)
    (stopper : s'.stopper = s.stopper) (workers : s'.workers = s.workers) : s'.Roles := by
  constructor
  · intro t
    rw [mode, stopper]
    exact roles.stopping t
  · intro t
    rw [status, stopper]
    exact roles.stopper t
  · intro t
    rw [status, mode, stopper]
    exact roles.frozen t
  · intro w
    rw [mode, workers]
    exact roles.worker w
  · intro w
    unfold Thread.Alive
    rw [status, mode, workers]
    exact roles.counted w
  · intro t
    rw [mode, status]
    intro child
    refine ⟨(roles.child t child).1, ?_⟩
    intro u ne
    unfold Thread.Alive
    rw [status, mode]
    exact (roles.child t child).2 u ne

omit [DecidableEq T] in
theorem Owned.congr (owned : s.Owned)
    (locks : ∀ u, (s'.thread u).hold.locks = (s.thread u).hold.locks) (word : s'.word = s.word) :
    s'.Owned := by
  have holds (u : T) (l : Lock) : s'.Holds u l ↔ s.Holds u l := by
    unfold Holds
    rw [locks]
  refine ⟨?_, ?_⟩
  · intro l
    simp only [word, holds]
    exact owned.word l
  · intro t u l first second
    exact owned.unique ((holds t l).mp first) ((holds u l).mp second)

omit [DecidableEq T] in
/-- A change to no thread's locks, mode or status. -/
theorem Inv.congr (inv : s.Inv) (sound : ∀ u, (s'.thread u).Sound)
    (status : ∀ u, (s'.thread u).status = (s.thread u).status)
    (hold : ∀ u, (s'.thread u).hold = (s.thread u).hold) (word : s'.word = s.word)
    (stopper : s'.stopper = s.stopper) (workers : s'.workers = s.workers) : s'.Inv := by
  refine ⟨sound, inv.owned.congr (fun u => congrArg Hold.locks (hold u)) word,
    inv.roles.congr status (fun u => congrArg Hold.mode (hold u)) stopper workers, ?_⟩
  intro t gone l held
  unfold Holds at held
  rw [status] at gone
  rw [hold] at held
  simp only [hold]
  exact inv.gone t gone l held

variable {a : Action} {l : Lock}

theorem advance_thread_self (s : State T) (t : T) (a : Action) :
    (s.advance t a).thread t =
      { s.thread t with code := (s.thread t).code.rest, hold := (s.thread t).hold.after a } :=
  Function.update_self t _ s.thread

theorem advance_thread_of_ne (s : State T) (a : Action) (ne : u ≠ t) :
    (s.advance t a).thread u = s.thread u :=
  Function.update_of_ne ne _ s.thread

theorem advance_status (s : State T) (t : T) (a : Action) (u : T) :
    ((s.advance t a).thread u).status = (s.thread u).status := by
  by_cases same : u = t
  · subst same
    rw [advance_thread_self]
  · rw [advance_thread_of_ne s a same]

theorem Inv.advance_sound (inv : s.Inv) (running : (s.thread t).status = .running)
    (next : (s.thread t).code.head = some a) (u : T) : ((s.advance t a).thread u).Sound := by
  by_cases same : u = t
  · subst same
    rw [advance_thread_self]
    exact (inv.sound u).advance running next
  · rw [advance_thread_of_ne s a same]
    exact inv.sound u

/-- An action that is not about locks or modes. -/
theorem Inv.quiet (inv : s.Inv) (running : (s.thread t).status = .running)
    (next : (s.thread t).code.head = some a)
    (same : (s.thread t).hold.after a = (s.thread t).hold) : (s.advance t a).Inv := by
  refine inv.congr (inv.advance_sound running next) (advance_status s t a) ?_ rfl rfl rfl
  intro u
  by_cases eq : u = t
  · subst eq
    rw [advance_thread_self]
    exact same
  · rw [advance_thread_of_ne s a eq]

/-- Where the action changes only which locks the thread holds. -/
theorem Inv.relock (inv : s.Inv) (running : (s.thread t).status = .running)
    (next : (s.thread t).code.head = some a)
    (mode : ((s.thread t).hold.after a).mode = (s.thread t).hold.mode) {word : Lock → Bool}
    (owned : State.Owned { s.advance t a with word := word }) :
    State.Inv { s.advance t a with word := word } := by
  refine ⟨inv.advance_sound running next, owned,
    inv.roles.congr (advance_status s t a) ?_ rfl rfl, ?_⟩
  · intro u
    change ((s.advance t a).thread u).hold.mode = _
    by_cases eq : u = t
    · subst eq
      rw [advance_thread_self]
      exact mode
    · rw [advance_thread_of_ne s a eq]
  · intro u gone k held
    have ne : u ≠ t := by
      rintro rfl
      rw [show (_ : Status) = _ from advance_status s u a u, running] at gone
      cases gone
    have same := advance_thread_of_ne s a ne
    change ((s.advance t a).thread u).status = .gone at gone
    change k ∈ ((s.advance t a).thread u).hold.locks at held
    rw [same] at gone held
    obtain ⟨work, v, child⟩ := inv.gone u gone k held
    refine ⟨work, v, ?_⟩
    change ((s.advance t a).thread v).hold.mode = .child
    by_cases eq : v = t
    · subst eq
      rw [advance_thread_self]
      exact mode.trans child
    · rw [advance_thread_of_ne s a eq]
      exact child

theorem Inv.lock (inv : s.Inv) (running : (s.thread t).status = .running)
    (next : (s.thread t).code.head = some a)
    (takes : ∀ h : Hold, h.after a = { h with locks := l :: h.locks }) (free : s.word l = false) :
    State.Inv { s.advance t a with word := Function.update s.word l true } := by
  have nobody (u : T) : ¬ s.Holds u l := by
    intro held
    have := (inv.owned.word l).mpr ⟨u, held⟩
    rw [free] at this
    cases this
  have holds (u : T) (k : Lock) :
      k ∈ ((s.advance t a).thread u).hold.locks ↔ (u = t ∧ k = l) ∨ s.Holds u k := by
    by_cases eq : u = t
    · subst eq
      rw [advance_thread_self]
      simp only [takes, List.mem_cons, true_and]
      exact Iff.rfl
    · rw [advance_thread_of_ne s a eq]
      simp only [eq, false_and, false_or]
      exact Iff.rfl
  refine inv.relock running next (by rw [takes]) ⟨?_, ?_⟩
  · intro k
    by_cases eq : k = l
    · subst eq
      refine iff_of_true (Function.update_self k true s.word) ⟨t, (holds t k).mpr (.inl ⟨rfl, rfl⟩)⟩
    · change Function.update s.word l true k = true ↔ _
      rw [Function.update_of_ne eq]
      refine (inv.owned.word k).trans (exists_congr fun u => ?_)
      refine (Iff.trans ?_ (holds u k).symm)
      simp only [eq, and_false, false_or]
  · intro u v k first second
    rcases (holds u k).mp first with ⟨rfl, rfl⟩ | before
    · rcases (holds v k).mp second with ⟨rfl, -⟩ | before
      · rfl
      · exact absurd before (nobody v)
    · rcases (holds v k).mp second with ⟨rfl, rfl⟩ | before'
      · exact absurd before (nobody u)
      · exact inv.owned.unique before before'

theorem Inv.unlock (inv : s.Inv) (running : (s.thread t).status = .running)
    (next : (s.thread t).code.head = some (.unlock l)) :
    State.Inv { s.advance t (.unlock l) with word := Function.update s.word l false } := by
  have sound := (inv.sound t).hold
  have distinct : (s.thread t).hold.locks.Nodup := by
    refine sound.ordered.imp ?_
    rintro j k lower rfl
    exact absurd lower (Nat.lt_irrefl _)
  obtain ⟨top, -⟩ : (s.thread t).hold.MayUnlock l := (inv.sound t).allowed running next
  have held : s.Holds t l := List.mem_of_mem_head? top
  have holds (u : T) (k : Lock) :
      k ∈ ((s.advance t (.unlock l)).thread u).hold.locks ↔ k ≠ l ∧ s.Holds u k := by
    by_cases eq : u = t
    · subst eq
      rw [advance_thread_self]
      exact distinct.mem_erase_iff
    · rw [advance_thread_of_ne s _ eq]
      refine (and_iff_right_of_imp ?_).symm
      rintro other rfl
      exact eq (inv.owned.unique other held)
  refine inv.relock running next rfl ⟨?_, ?_⟩
  · intro k
    by_cases eq : k = l
    · subst eq
      refine iff_of_false ?_ ?_
      · change ¬ Function.update s.word k false k = true
        rw [Function.update_self]
        exact Bool.false_ne_true
      · rintro ⟨u, still⟩
        exact ((holds u k).mp still).1 rfl
    · change Function.update s.word l false k = true ↔ _
      rw [Function.update_of_ne eq]
      refine (inv.owned.word k).trans (exists_congr fun u => ?_)
      exact (Iff.trans (and_iff_right eq).symm (holds u k).symm)
  · intro u v k first second
    exact inv.owned.unique ((holds u k).mp first).2 ((holds v k).mp second).2

omit [DecidableEq T] in
/-- Who holds the sweep's lock outside a stop and a fork's child is the only
one near either. -/
theorem Inv.alone (inv : s.Inv) (held : s.Holds t .sweepLock)
    (plain : (s.thread t).hold.mode = .plain) :
    s.stopper = none ∧ ∀ u, (s.thread u).hold.mode ≠ .child := by
  refine ⟨?_, ?_⟩
  · cases stopping : s.stopper with
    | none => rfl
    | some u =>
      have mode := (inv.roles.stopping u).mpr stopping
      have sweep : s.Holds u .sweepLock :=
        (inv.sound u).hold.stopping mode _ (List.mem_append_right _ List.mem_cons_self)
      obtain rfl := inv.owned.unique held sweep
      rw [plain] at mode
      cases mode
  · intro u mode
    obtain rfl := inv.owned.unique held ((inv.sound u).hold.child mode)
    rw [plain] at mode
    cases mode

theorem advance_locks (s : State T) (t : T) (a : Action)
    (same : ((s.thread t).hold.after a).locks = (s.thread t).hold.locks) (u : T) :
    ((s.advance t a).thread u).hold.locks = (s.thread u).hold.locks := by
  by_cases eq : u = t
  · subst eq
    rw [advance_thread_self]
    exact same
  · rw [advance_thread_of_ne s a eq]

theorem Inv.stop (inv : s.Inv) (running : (s.thread t).status = .running)
    (next : (s.thread t).code.head = some .stopThreads) :
    State.Inv { s.advance t .stopThreads with stopper := some t } := by
  obtain ⟨plain, locks⟩ := (inv.sound t).allowed running next
  have held : s.Holds t .sweepLock := by
    change _ ∈ (s.thread t).hold.locks
    rw [locks]
    exact List.mem_append_right _ List.mem_cons_self
  obtain ⟨nobody, childless⟩ := inv.alone held plain
  have self := advance_thread_self s t .stopThreads
  have status := advance_status s t .stopThreads
  have mode {u : T} (ne : u ≠ t) :
      ((s.advance t .stopThreads).thread u).hold.mode = (s.thread u).hold.mode := by
    rw [advance_thread_of_ne s _ ne]
  have child (u : T) : ((s.advance t .stopThreads).thread u).hold.mode ≠ .child := by
    by_cases eq : u = t
    · subst eq
      rw [self]
      exact nofun
    · rw [mode eq]
      exact childless u
  refine ⟨inv.advance_sound running next, inv.owned.congr (advance_locks s t _ rfl) rfl,
    ⟨?_, ?_, ?_, ?_, ?_, ?_⟩, ?_⟩
  · intro u
    change ((s.advance t .stopThreads).thread u).hold.mode = .stopping ↔ some t = some u
    by_cases eq : u = t
    · subst eq
      rw [self]
      exact iff_of_true rfl rfl
    · rw [mode eq, inv.roles.stopping u, nobody]
      exact iff_of_false nofun fun same => eq (Option.some.inj same).symm
  · intro u same
    obtain rfl := Option.some.inj same
    exact (status t).trans running
  · intro u frozen
    exact absurd nobody (inv.roles.frozen u ((status u).symm.trans frozen)).2
  · intro w mem
    change ((s.advance t .stopThreads).thread w).hold.mode.Worker
    rw [mode]
    · exact inv.roles.worker w mem
    · rintro rfl
      have worker := inv.roles.worker w mem
      rw [plain] at worker
      exact absurd worker (by decide)
  · intro w alive worker
    have ne : w ≠ t := by
      rintro rfl
      change ((s.advance w .stopThreads).thread w).hold.mode.Worker at worker
      rw [self] at worker
      exact absurd worker (show ¬ Mode.Worker .stopping by decide)
    unfold Thread.Alive at alive
    change ((s.advance t .stopThreads).thread w).status = _ ∨
      ((s.advance t .stopThreads).thread w).status = _ at alive
    change ((s.advance t .stopThreads).thread w).hold.mode.Worker at worker
    rw [status] at alive
    rw [mode ne] at worker
    exact inv.roles.counted w alive worker
  · intro u mode
    exact absurd mode (child u)
  · intro u gone l held
    have before : s.Holds u l :=
      (congrArg (l ∈ ·) (advance_locks s t .stopThreads rfl u)).mp held
    obtain ⟨-, v, mode⟩ := inv.gone u ((status u).symm.trans gone) l before
    exact absurd mode (childless v)

theorem Inv.resume (inv : s.Inv) (running : (s.thread t).status = .running)
    (next : (s.thread t).code.head = some .resumeThreads) :
    State.Inv { s.advance t .resumeThreads with
      stopper := none, thread := fun u => ((s.advance t .resumeThreads).thread u).thaw } := by
  obtain ⟨stopping, -⟩ := (inv.sound t).allowed running next
  have stopper : s.stopper = some t := (inv.roles.stopping t).mp stopping
  have self := advance_thread_self s t .resumeThreads
  have other {u : T} (ne : u ≠ t) := advance_thread_of_ne s .resumeThreads ne
  have self_hold : ((s.advance t .resumeThreads).thread t).thaw.hold.mode = .plain := by
    rw [Thread.thaw_hold, self]
    rfl
  have hold {u : T} (ne : u ≠ t) :
      ((s.advance t .resumeThreads).thread u).thaw.hold = (s.thread u).hold := by
    rw [Thread.thaw_hold, other ne]
  have childless (u : T) : (s.thread u).hold.mode ≠ .child := by
    intro child
    have ne : t ≠ u := by
      rintro rfl
      rw [stopping] at child
      cases child
    have plain := (inv.roles.child u child).2 t ne (Thread.alive_of_running running)
    rw [stopping] at plain
    cases plain
  refine ⟨fun u => (inv.advance_sound running next u).thaw, inv.owned.congr ?_ rfl,
    ⟨?_, ?_, ?_, ?_, ?_, ?_⟩, ?_⟩
  · intro u
    change ((s.advance t .resumeThreads).thread u).thaw.hold.locks = _
    rw [Thread.thaw_hold]
    exact advance_locks s t .resumeThreads rfl u
  · intro u
    change ((s.advance t .resumeThreads).thread u).thaw.hold.mode = .stopping ↔ none = some u
    refine iff_of_false ?_ nofun
    by_cases eq : u = t
    · subst eq
      rw [self_hold]
      exact nofun
    · rw [hold eq, inv.roles.stopping u, stopper]
      exact fun same => eq (Option.some.inj same).symm
  · exact fun u => nofun
  · exact fun u frozen => absurd frozen (Thread.thaw_status_ne _)
  · intro w mem
    have worker := inv.roles.worker w mem
    have ne : w ≠ t := by
      rintro rfl
      rw [stopping] at worker
      exact absurd worker (by decide)
    change ((s.advance t .resumeThreads).thread w).thaw.hold.mode.Worker
    rw [hold ne]
    exact worker
  · intro w alive worker
    change ((s.advance t .resumeThreads).thread w).thaw.hold.mode.Worker at worker
    have ne : w ≠ t := by
      rintro rfl
      rw [self_hold] at worker
      exact absurd worker (by decide)
    rw [hold ne] at worker
    have before : ((s.advance t .resumeThreads).thread w).Alive := Thread.thaw_alive alive
    rw [other ne] at before
    exact inv.roles.counted w before worker
  · intro u child
    change ((s.advance t .resumeThreads).thread u).thaw.hold.mode = .child at child
    by_cases eq : u = t
    · subst eq
      rw [self_hold] at child
      cases child
    · rw [hold eq] at child
      exact absurd child (childless u)
  · intro u gone l held
    have gone_before := Thread.thaw_gone gone
    rw [advance_status] at gone_before
    change l ∈ ((s.advance t .resumeThreads).thread u).thaw.hold.locks at held
    rw [Thread.thaw_hold] at held
    have before : s.Holds u l :=
      (congrArg (l ∈ ·) (advance_locks s t .resumeThreads rfl u)).mp held
    obtain ⟨-, v, child⟩ := inv.gone u gone_before l before
    exact absurd child (childless v)

/-- A worker goes on to another part of its rounds. -/
theorem Inv.workers (inv : s.Inv) (running : (s.thread t).status = .running)
    (next : (s.thread t).code.head = some a) (locks : ∀ h : Hold, (h.after a).locks = h.locks)
    (was : (s.thread t).hold.mode.Worker) (now : ((s.thread t).hold.after a).mode.Worker) :
    (s.advance t a).Inv := by
  have self := advance_thread_self s t a
  have other {u : T} (ne : u ≠ t) := advance_thread_of_ne s a ne
  have status := advance_status s t a
  have childless (u : T) : (s.thread u).hold.mode ≠ .child := by
    intro child
    have ne : t ≠ u := by
      rintro rfl
      rw [child] at was
      exact absurd was (by decide)
    rw [(inv.roles.child u child).2 t ne (Thread.alive_of_running running)] at was
    exact absurd was (by decide)
  refine ⟨inv.advance_sound running next, inv.owned.congr (advance_locks s t a (locks _)) rfl,
    ⟨?_, ?_, ?_, ?_, ?_, ?_⟩, ?_⟩
  · intro u
    refine Iff.trans ?_ (inv.roles.stopping u)
    by_cases eq : u = t
    · subst eq
      rw [self]
      refine iff_of_false ?_ ?_
      · intro stopping
        rw [show ((s.thread u).hold.after a).mode = _ from stopping] at now
        exact absurd now (by decide)
      · intro stopping
        rw [stopping] at was
        exact absurd was (by decide)
    · rw [other eq]
  · intro u stopper
    rw [status]
    exact inv.roles.stopper u stopper
  · intro u frozen
    rw [status] at frozen
    have ne : u ≠ t := by
      rintro rfl
      rw [running] at frozen
      cases frozen
    rw [other ne]
    exact inv.roles.frozen u frozen
  · intro w mem
    by_cases eq : w = t
    · subst eq
      rw [self]
      exact now
    · rw [other eq]
      exact inv.roles.worker w mem
  · intro w alive worker
    by_cases eq : w = t
    · subst eq
      exact inv.roles.counted w (Thread.alive_of_running running) was
    · rw [other eq] at alive worker
      exact inv.roles.counted w alive worker
  · intro u child
    by_cases eq : u = t
    · subst eq
      rw [self] at child
      rw [show ((s.thread u).hold.after a).mode = _ from child] at now
      exact absurd now (by decide)
    · rw [other eq] at child
      exact absurd child (childless u)
  · intro u gone l held
    rw [status] at gone
    have before : s.Holds u l := (congrArg (l ∈ ·) (advance_locks s t a (locks _) u)).mp held
    obtain ⟨-, v, child⟩ := inv.gone u gone l before
    exact absurd child (childless v)

/-- A fork's child, where only the thread that forked goes on. -/
def forked (s : State T) (t : T) : State T :=
  { s.advance t .enterChild with
    thread := fun u => if u = t then (s.advance t .enterChild).thread u
      else ((s.advance t .enterChild).thread u).leave }

theorem forked_self (s : State T) (t : T) :
    (s.forked t).thread t = (s.advance t .enterChild).thread t := if_pos rfl

theorem forked_other (s : State T) (ne : u ≠ t) :
    (s.forked t).thread u = (s.thread u).leave := by
  refine (if_neg ne).trans ?_
  rw [advance_thread_of_ne s _ ne]

theorem forked_hold (s : State T) (ne : u ≠ t) :
    ((s.forked t).thread u).hold = (s.thread u).hold := by
  rw [forked_other s ne, Thread.leave_hold]

theorem forked_mode_self (s : State T) (t : T) :
    ((s.forked t).thread t).hold.mode = .child := by
  rw [forked_self, advance_thread_self]
  rfl

theorem forked_status_self (s : State T) (t : T) :
    ((s.forked t).thread t).status = (s.thread t).status := by
  rw [forked_self, advance_status]

theorem eq_of_forked_alive (alive : ((s.forked t).thread u).Alive) : u = t := by
  by_contra ne
  rw [forked_other s ne] at alive
  exact absurd alive (Thread.leave_not_alive _)

theorem Inv.forked_sound (inv : s.Inv) (running : (s.thread t).status = .running)
    (next : (s.thread t).code.head = some .enterChild) (u : T) :
    ((s.forked t).thread u).Sound := by
  by_cases eq : u = t
  · subst eq
    rw [forked_self]
    exact inv.advance_sound running next u
  · rw [forked_other s eq]
    exact (inv.sound u).leave

theorem forked_owned (owned : s.Owned) : (s.forked t).Owned := by
  refine owned.congr (fun u => ?_) rfl
  by_cases eq : u = t
  · subst eq
    rw [forked_self]
    exact advance_locks s u .enterChild rfl u
  · rw [forked_hold s eq]

theorem forked_roles (roles : s.Roles) (running : (s.thread t).status = .running)
    (plain : (s.thread t).hold.mode = .plain) (nobody : s.stopper = none)
    (childless : ∀ u, (s.thread u).hold.mode ≠ .child) : (s.forked t).Roles := by
  constructor
  · intro u
    refine iff_of_false ?_ ?_
    · by_cases eq : u = t
      · subst eq
        rw [forked_mode_self]
        exact nofun
      · rw [forked_hold s eq, roles.stopping u, nobody]
        exact nofun
    · rw [show (s.forked t).stopper = none from nobody]
      exact nofun
  · intro u stopper
    rw [show (s.forked t).stopper = none from nobody] at stopper
    cases stopper
  · intro u frozen
    obtain rfl := eq_of_forked_alive (.inr frozen)
    rw [forked_status_self, running] at frozen
    cases frozen
  · intro w mem
    have worker := roles.worker w mem
    have ne : w ≠ t := by
      rintro rfl
      rw [plain] at worker
      exact absurd worker (by decide)
    rw [forked_hold s ne]
    exact worker
  · intro w alive worker
    obtain rfl := eq_of_forked_alive alive
    rw [forked_mode_self] at worker
    exact absurd worker (by decide)
  · intro u child
    have eq : u = t := by
      by_contra ne
      rw [forked_hold s ne] at child
      exact childless u child
    subst eq
    refine ⟨(forked_status_self s u).trans running, fun v ne alive => ?_⟩
    exact absurd (eq_of_forked_alive alive) ne

omit [DecidableEq T] in
/-- What another thread held beside the forking one is at most the mutex. -/
theorem Inv.holds_beside_fork (inv : s.Inv)
    (locks : (s.thread t).hold.locks = Hold.world ++ [.cacheListLock, .sweepLock]) (ne : u ≠ t)
    (held : s.Holds u l) : l = .workLock := by
  have others (k : Lock) (mem : k ∈ (s.thread u).hold.locks) :
      k ∉ Hold.world ++ [.cacheListLock, .sweepLock] := by
    intro has
    rw [← locks] at has
    exact ne (inv.owned.unique mem has)
  have outside (k : Lock) (mem : k ∈ (s.thread u).hold.locks) :
      k ∉ Hold.world ++ [.sweepLock] := by
    intro has
    refine others k mem ?_
    rcases List.mem_append.mp has with has | has
    · exact List.mem_append_left _ has
    · exact List.mem_append_right _ (List.mem_cons_of_mem _ has)
  rcases (inv.sound u).hold.of_world_held held outside with rfl | work
  · exact absurd (List.mem_append_right _ (by decide)) (others _ held)
  · exact work

theorem Inv.enterChild (inv : s.Inv) (running : (s.thread t).status = .running)
    (next : (s.thread t).code.head = some .enterChild) : (s.forked t).Inv := by
  obtain ⟨plain, locks⟩ := (inv.sound t).allowed running next
  have sweep : s.Holds t .sweepLock := by
    unfold Holds
    rw [locks]
    exact List.mem_append_right _ (by decide)
  obtain ⟨nobody, childless⟩ := inv.alone sweep plain
  refine ⟨inv.forked_sound running next, forked_owned inv.owned,
    forked_roles inv.roles running plain nobody childless, fun u gone l held => ?_⟩
  have ne : u ≠ t := by
    rintro rfl
    rw [forked_status_self, running] at gone
    cases gone
  unfold Holds at held
  rw [forked_hold s ne] at held
  exact ⟨inv.holds_beside_fork locks ne held, t, forked_mode_self s t⟩

/-- The child's mutex and its workers' list made anew. -/
def remade (s : State T) (t : T) : State T :=
  { s.advance t .initWorkLock with
    word := Function.update s.word .workLock false
    workers := []
    round := 0
    thread := fun u => ((s.advance t .initWorkLock).thread u).loseWork }

theorem remade_status (s : State T) (t u : T) :
    ((s.remade t).thread u).status = (s.thread u).status :=
  (Thread.loseWork_status _).trans (advance_status s t .initWorkLock u)

theorem remade_alive (alive : ((s.remade t).thread u).Alive) : (s.thread u).Alive := by
  unfold Thread.Alive at alive
  rw [remade_status] at alive
  exact alive

theorem remade_mode_self (s : State T) (t : T) : ((s.remade t).thread t).hold.mode = .plain := by
  refine (Thread.loseWork_mode _).trans ?_
  rw [advance_thread_self]
  rfl

theorem remade_mode (s : State T) (ne : u ≠ t) :
    ((s.remade t).thread u).hold.mode = (s.thread u).hold.mode := by
  refine (Thread.loseWork_mode _).trans ?_
  rw [advance_thread_of_ne s _ ne]

theorem remade_of_left (left : (s.thread u).status ≠ .gone) :
    (s.remade t).thread u = (s.advance t .initWorkLock).thread u := by
  refine Thread.loseWork_of_ne ?_
  rw [advance_status]
  exact left

/-- A thread of the parent's held at most the mutex. -/
theorem Inv.remade_lost (inv : s.Inv) (running : (s.thread t).status = .running)
    (next : (s.thread t).code.head = some .initWorkLock) (gone : (s.thread u).status = .gone) :
    ((s.remade t).thread u).hold.locks = [] := by
  refine Thread.loseWork_locks (inv.advance_sound running next u).hold
    ((advance_status s t _ u).trans gone) ?_
  intro l mem
  rw [advance_locks s t .initWorkLock rfl] at mem
  exact (inv.gone u gone l mem).1

theorem Inv.remade_holds (inv : s.Inv) (running : (s.thread t).status = .running)
    (next : (s.thread t).code.head = some .initWorkLock) :
    (s.remade t).Holds u l ↔ (s.thread u).status ≠ .gone ∧ s.Holds u l := by
  unfold Holds
  by_cases gone : (s.thread u).status = .gone
  · rw [inv.remade_lost running next gone]
    exact iff_of_false nofun fun both => both.1 gone
  · rw [remade_of_left gone, advance_locks s t .initWorkLock rfl]
    exact (and_iff_right gone).symm

omit [DecidableEq T] in
theorem Inv.not_stopped (inv : s.Inv) (child : (s.thread t).hold.mode = .child) :
    s.stopper = none := by
  cases stopping : s.stopper with
  | none => rfl
  | some u =>
    have mode := (inv.roles.stopping u).mpr stopping
    have ne : u ≠ t := by
      rintro rfl
      rw [child] at mode
      cases mode
    have plain := (inv.roles.child t child).2 u ne (.inl (inv.roles.stopper u stopping))
    rw [plain] at mode
    cases mode

omit [DecidableEq T] in
/-- In a fork's child nobody that is there holds the mutex. -/
theorem Inv.work_free (inv : s.Inv) (child : (s.thread t).hold.mode = .child)
    (left : (s.thread u).status ≠ .gone) : ¬ s.Holds u .workLock := by
  intro held
  have mode := (inv.sound u).hold.work held
  have plain (alive : (s.thread u).Alive) : False := by
    by_cases eq : u = t
    · subst eq
      rw [child] at mode
      exact absurd mode (by decide)
    · rw [(inv.roles.child t child).2 u eq alive] at mode
      exact absurd mode (by decide)
  cases status : (s.thread u).status with
  | fresh =>
    have nothing := (inv.sound u).fresh status
    unfold Holds at held
    rw [nothing] at held
    cases held
  | gone => exact left status
  | running => exact plain (.inl status)
  | frozen => exact plain (.inr status)

theorem Inv.remade_sound (inv : s.Inv) (running : (s.thread t).status = .running)
    (next : (s.thread t).code.head = some .initWorkLock) (u : T) :
    ((s.remade t).thread u).Sound := by
  have child : (s.thread t).hold.mode = .child := (inv.sound t).allowed running next
  by_cases gone : (s.thread u).status = .gone
  · have ne : u ≠ t := by
      rintro rfl
      rw [running] at gone
      cases gone
    have empty := inv.remade_lost running next gone
    have mode := remade_mode s ne
    refine ⟨⟨?_, ?_, ?_, ?_, ?_, ?_⟩, ?_, ?_⟩
    · rw [empty]
      exact .nil
    · rw [empty]
      exact nofun
    · rw [empty]
      exact nofun
    · rw [empty]
      exact fun _ => nofun
    · rw [mode, inv.roles.stopping u, inv.not_stopped child]
      exact nofun
    · rw [mode]
      intro child
      rw [(inv.roles.child u child).1] at gone
      cases gone
    · intro alive
      rcases remade_alive alive with still | still
      · rw [gone] at still
        cases still
      · rw [gone] at still
        cases still
    · intro fresh
      rw [remade_status, gone] at fresh
      cases fresh
  · rw [remade_of_left gone]
    exact inv.advance_sound running next u

theorem Inv.remade_owned (inv : s.Inv) (running : (s.thread t).status = .running)
    (next : (s.thread t).code.head = some .initWorkLock) : (s.remade t).Owned := by
  have child : (s.thread t).hold.mode = .child := (inv.sound t).allowed running next
  refine ⟨fun l => ?_, fun first second => ?_⟩
  · simp only [inv.remade_holds running next]
    change Function.update s.word .workLock false l = true ↔ _
    by_cases eq : l = .workLock
    · subst eq
      rw [Function.update_self]
      refine iff_of_false Bool.false_ne_true ?_
      rintro ⟨u, left, held⟩
      exact inv.work_free child left held
    · rw [Function.update_of_ne eq]
      refine (inv.owned.word l).trans (exists_congr fun u => (and_iff_right_of_imp ?_).symm)
      intro held gone
      exact eq (inv.gone u gone l held).1
  · rw [inv.remade_holds running next] at first second
    exact inv.owned.unique first.2 second.2

theorem Inv.remade_roles (inv : s.Inv) (running : (s.thread t).status = .running)
    (child : (s.thread t).hold.mode = .child) : (s.remade t).Roles := by
  have nobody := inv.not_stopped child
  constructor
  · intro u
    by_cases eq : u = t
    · subst eq
      rw [remade_mode_self, show (s.remade u).stopper = none from nobody]
      exact iff_of_false nofun nofun
    · rw [remade_mode s eq]
      exact inv.roles.stopping u
  · intro u stopper
    rw [show (s.remade t).stopper = none from nobody] at stopper
    cases stopper
  · intro u frozen
    rw [remade_status] at frozen
    exact absurd nobody (inv.roles.frozen u frozen).2
  · exact fun w => nofun
  · intro w alive worker
    by_cases eq : w = t
    · subst eq
      rw [remade_mode_self] at worker
      exact absurd worker (by decide)
    · rw [remade_mode s eq, (inv.roles.child t child).2 w eq (remade_alive alive)] at worker
      exact absurd worker (by decide)
  · intro u mode
    by_cases eq : u = t
    · subst eq
      rw [remade_mode_self] at mode
      cases mode
    · rw [remade_mode s eq] at mode
      have plain := (inv.roles.child u mode).2 t (Ne.symm eq) (.inl running)
      rw [child] at plain
      cases plain

theorem Inv.initWorkLock (inv : s.Inv) (running : (s.thread t).status = .running)
    (next : (s.thread t).code.head = some .initWorkLock) : (s.remade t).Inv := by
  refine ⟨inv.remade_sound running next, inv.remade_owned running next,
    inv.remade_roles running ((inv.sound t).allowed running next), fun u gone l held => ?_⟩
  rw [remade_status] at gone
  exact absurd gone ((inv.remade_holds running next).mp held).1

/-- A thread that begins, a plain one or a worker. -/
structure Begins (s : State T) (t : T) (th : Thread) (workers : List T) : Prop where
  fresh : (s.thread t).status = .fresh
  sound : th.Sound
  running : th.status = .running
  empty : th.hold.locks = []
  more : ∀ w ∈ s.workers, w ∈ workers
  only : ∀ w ∈ workers, w ∈ s.workers ∨ w = t
  mode : (th.hold.mode = .plain ∧ t ∉ workers) ∨
    (th.hold.mode.Worker ∧ t ∈ workers ∧ ∀ u, (s.thread u).hold.mode ≠ .child)

section Begins

variable {th : Thread} {workers : List T}

omit [DecidableEq T] in
theorem Begins.mode_ne (begins : s.Begins t th workers) :
    th.hold.mode ≠ .stopping ∧ th.hold.mode ≠ .child := by
  rcases begins.mode with ⟨plain, -⟩ | ⟨worker, -⟩
  · rw [plain]
    exact ⟨nofun, nofun⟩
  · refine ⟨?_, ?_⟩
    · intro stopping
      rw [stopping] at worker
      exact absurd worker (by decide)
    · intro child
      rw [child] at worker
      exact absurd worker (by decide)

theorem set_self (s : State T) (t : T) (th : Thread) : (s.set t th).thread t = th :=
  (s.set_thread t th t).trans (if_pos rfl)

theorem set_other (s : State T) (th : Thread) (ne : u ≠ t) :
    (s.set t th).thread u = s.thread u :=
  (s.set_thread t th u).trans (if_neg ne)

theorem Begins.roles (begins : s.Begins t th workers) (roles : s.Roles) :
    State.Roles { s.set t th with workers := workers } := by
  constructor
  · intro u
    change ((s.set t th).thread u).hold.mode = _ ↔ s.stopper = some u
    by_cases eq : u = t
    · rw [eq, set_self]
      refine iff_of_false begins.mode_ne.1 fun stopper => ?_
      have running := roles.stopper t stopper
      rw [begins.fresh] at running
      cases running
    · rw [set_other s th eq]
      exact roles.stopping u
  · intro u stopper
    change ((s.set t th).thread u).status = .running
    by_cases eq : u = t
    · rw [eq, set_self]
      exact begins.running
    · rw [set_other s th eq]
      exact roles.stopper u stopper
  · intro u frozen
    change ((s.set t th).thread u).status = .frozen at frozen
    change ¬ ((s.set t th).thread u).hold.mode.Worker ∧ s.stopper ≠ none
    by_cases eq : u = t
    · rw [eq, set_self, begins.running] at frozen
      cases frozen
    · rw [set_other s th eq] at frozen ⊢
      exact roles.frozen u frozen
  · intro w mem
    change ((s.set t th).thread w).hold.mode.Worker
    by_cases eq : w = t
    · subst eq
      rw [set_self]
      rcases begins.mode with ⟨-, no⟩ | ⟨worker, -⟩
      · exact absurd mem no
      · exact worker
    · rw [set_other s th eq]
      exact roles.worker w ((begins.only w mem).resolve_right eq)
  · intro w alive worker
    change ((s.set t th).thread w).Alive at alive
    change ((s.set t th).thread w).hold.mode.Worker at worker
    by_cases eq : w = t
    · subst eq
      rw [set_self] at worker
      rcases begins.mode with ⟨plain, -⟩ | ⟨-, mem, -⟩
      · rw [plain] at worker
        exact absurd worker (by decide)
      · exact mem
    · rw [set_other s th eq] at alive worker
      exact begins.more w (roles.counted w alive worker)
  · intro u child
    change ((s.set t th).thread u).hold.mode = .child at child
    have ne : u ≠ t := by
      rintro rfl
      rw [set_self] at child
      exact begins.mode_ne.2 child
    rw [set_other s th ne] at child
    change ((s.set t th).thread u).status = .running ∧ ∀ v, v ≠ u →
      ((s.set t th).thread v).Alive → ((s.set t th).thread v).hold.mode = .plain
    rw [set_other s th ne]
    refine ⟨(roles.child u child).1, fun v ne' alive => ?_⟩
    by_cases eq : v = t
    · rw [eq, set_self]
      rcases begins.mode with ⟨plain, -⟩ | ⟨-, -, childless⟩
      · exact plain
      · exact absurd child (childless u)
    · rw [set_other s th eq] at alive ⊢
      exact (roles.child u child).2 v ne' alive

/-- A thread that is not there yet, and what it becomes. -/
theorem Inv.born (inv : s.Inv) (begins : s.Begins t th workers) :
    State.Inv { s.set t th with workers := workers } := by
  have before : (s.thread t).hold = Hold.nothing := (inv.sound t).fresh begins.fresh
  refine ⟨fun u => ?_, inv.owned.congr (fun u => ?_) rfl, begins.roles inv.roles,
    fun u gone l held => ?_⟩
  · change ((s.set t th).thread u).Sound
    by_cases eq : u = t
    · rw [eq, set_self]
      exact begins.sound
    · rw [set_other s th eq]
      exact inv.sound u
  · change ((s.set t th).thread u).hold.locks = _
    by_cases eq : u = t
    · rw [eq, set_self, begins.empty, before]
      rfl
    · rw [set_other s th eq]
  · change ((s.set t th).thread u).status = .gone at gone
    have ne : u ≠ t := by
      rintro rfl
      rw [set_self, begins.running] at gone
      cases gone
    change l ∈ ((s.set t th).thread u).hold.locks at held
    rw [set_other s th ne] at gone held
    obtain ⟨work, v, child⟩ := inv.gone u gone l held
    refine ⟨work, v, ?_⟩
    change ((s.set t th).thread v).hold.mode = .child
    rw [set_other s th]
    · exact child
    · rintro rfl
      rw [before] at child
      cases child

end Begins

theorem Inv.freeze (inv : s.Inv) (running : (s.thread t).status = .running)
    (stopped : s.stopper.any (· ≠ t)) (program : t ∉ s.workers) :
    (s.set t { s.thread t with status := .frozen }).Inv := by
  obtain ⟨u, stopper, other_thread⟩ := (Option.any_eq_true _ _).mp stopped
  have ne_stopper : u ≠ t := of_decide_eq_true other_thread
  have self : (s.set t { s.thread t with status := .frozen }).thread t =
      { s.thread t with status := .frozen } := Function.update_self t _ s.thread
  have other {v : T} (ne : v ≠ t) :
      (s.set t { s.thread t with status := .frozen }).thread v = s.thread v :=
    Function.update_of_ne ne _ s.thread
  have hold (v : T) :
      ((s.set t { s.thread t with status := .frozen }).thread v).hold = (s.thread v).hold := by
    by_cases eq : v = t
    · rw [eq, self]
    · rw [other eq]
  have alive {v : T}
      (now : ((s.set t { s.thread t with status := .frozen }).thread v).Alive) :
      (s.thread v).Alive := by
    by_cases eq : v = t
    · subst eq
      exact .inl running
    · rw [other eq] at now
      exact now
  have childless (v : T) : (s.thread v).hold.mode ≠ .child := by
    intro child
    have stopping := (inv.roles.stopping u).mpr stopper
    by_cases eq : u = v
    · subst eq
      rw [child] at stopping
      cases stopping
    · rw [(inv.roles.child v child).2 u eq (.inl (inv.roles.stopper u stopper))] at stopping
      cases stopping
  constructor
  · intro v
    by_cases eq : v = t
    · rw [eq, self]
      exact ⟨(inv.sound t).hold, fun _ => (inv.sound t).keeps (.inl running), nofun⟩
    · rw [other eq]
      exact inv.sound v
  · exact inv.owned.congr (fun v => congrArg Hold.locks (hold v)) rfl
  · constructor
    · intro v
      rw [hold]
      exact inv.roles.stopping v
    · intro v same
      have eq : v = u := Option.some.inj (same.symm.trans stopper)
      rw [other (eq ▸ ne_stopper)]
      exact inv.roles.stopper v same
    · intro v frozen
      rw [hold]
      refine ⟨?_, fun none => ?_⟩
      · intro worker
        by_cases eq : v = t
        · subst eq
          exact program (inv.roles.counted v (.inl running) worker)
        · rw [other eq] at frozen
          exact (inv.roles.frozen v frozen).1 worker
      · rw [show s.stopper = _ from none] at stopper
        cases stopper
    · intro w mem
      rw [hold]
      exact inv.roles.worker w mem
    · intro w now worker
      rw [hold] at worker
      exact inv.roles.counted w (alive now) worker
    · intro v child
      rw [hold] at child
      exact absurd child (childless v)
  · intro v gone l held
    have ne : v ≠ t := by
      rintro rfl
      rw [self] at gone
      cases gone
    unfold Holds at held
    rw [other ne] at gone held
    obtain ⟨-, w, child⟩ := inv.gone v gone l held
    exact absurd child (childless w)

theorem Inv.perform (inv : s.Inv) (running : (s.thread t).status = .running)
    (next : (s.thread t).code.head = some a) (done : s.perform t a = some s') : s'.Inv := by
  have allowed := (inv.sound t).allowed running next
  cases a with
  | lock l | tryLock l =>
    unfold State.perform at done
    simp only at done
    split at done
    · cases done
    · next free =>
      obtain rfl := Option.some.inj done
      exact inv.lock running next (fun _ => rfl) (Bool.eq_false_of_not_eq_true free)
  | unlock l =>
    obtain rfl := Option.some.inj done
    exact inv.unlock running next
  | stopThreads =>
    obtain rfl := Option.some.inj done
    exact inv.stop running next
  | resumeThreads =>
    obtain rfl := Option.some.inj done
    exact inv.resume running next
  | createWorker => cases done
  | awaitWorker =>
    unfold State.perform at done
    simp only at done
    split at done
    · obtain rfl := Option.some.inj done
      exact inv.quiet running next rfl
    · cases done
  | startRound =>
    obtain rfl := Option.some.inj done
    exact (inv.quiet running next rfl).congr (inv.quiet running next rfl).sound (fun _ => rfl)
      (fun _ => rfl) rfl rfl rfl
  | storeThreadId =>
    obtain rfl := Option.some.inj done
    exact inv.workers running next (fun _ => rfl) (.inl allowed) (.inr (.inl rfl))
  | seeRound =>
    obtain rfl := Option.some.inj done
    have seen := inv.workers running next (fun _ => rfl) (.inr (.inl allowed)) (.inr (.inr rfl))
    have self := (s.advance t .seeRound).set_thread t
      { (s.advance t .seeRound).thread t with seen := s.round }
    have hold (u : T) : (((s.advance t .seeRound).set t
        { (s.advance t .seeRound).thread t with seen := s.round }).thread u).hold =
          ((s.advance t .seeRound).thread u).hold := by
      rw [self]
      split
      · next eq => rw [eq]
      · rfl
    refine seen.congr ?_ ?_ hold rfl rfl rfl
    · intro u
      rw [self]
      split
      · exact ⟨(seen.sound t).hold, (seen.sound t).keeps, (seen.sound t).fresh⟩
      · exact seen.sound u
    · intro u
      rw [self]
      split
      · next eq => rw [eq]
      · rfl
  | finishRound =>
    obtain rfl := Option.some.inj done
    exact inv.workers running next (fun _ => rfl) (.inr (.inr allowed)) (.inr (.inl rfl))
  | enterChild =>
    obtain rfl := Option.some.inj done
    exact inv.enterChild running next
  | initWorkLock =>
    obtain rfl := Option.some.inj done
    exact inv.initWorkLock running next
  | query | storeBytes | locksUp | locksDown | depthUp | depthDown | setCache | setGone | openArrays
  | closeArrays | defer | loadCount | storeCount | loadDeferred | release | blockSignals
  | restoreSignals | awaitGo | awaitDone =>
    obtain rfl := Option.some.inj done
    exact inv.quiet running next rfl

/-- A thread's program changes, and still keeps to the order. -/
theorem Inv.recode (inv : s.Inv) {c : Program}
    (keeps : (s.thread t).Alive → ∃ h', Keeps (s.thread t).hold c h') :
    (s.set t { s.thread t with code := c }).Inv := by
  have lookup := s.set_thread t { s.thread t with code := c }
  refine inv.congr ?_ ?_ ?_ rfl rfl rfl
  · intro u
    rw [lookup]
    split
    · exact ⟨(inv.sound t).hold, keeps, (inv.sound t).fresh⟩
    · exact inv.sound u
  · intro u
    rw [lookup]
    split
    · next eq => rw [eq]
    · rfl
  · intro u
    rw [lookup]
    split
    · next eq => rw [eq]
    · rfl

theorem sound_started : Thread.Sound { Thread.unborn with status := .running } :=
  ⟨Hold.sound_nothing, fun _ => ⟨Hold.nothing, .skip⟩, nofun⟩

theorem sound_worker : Thread.Sound ⟨.running, markWorker, ⟨[], .starting⟩, 0⟩ :=
  ⟨⟨.nil, nofun, nofun, fun _ => nofun, nofun, nofun⟩, fun _ => ⟨Hold.nothing, keeps_markWorker⟩,
    nofun⟩

theorem Inv.step {e : Event T} (inv : s.Inv) (taken : s.step e = some s') : s'.Inv := by
  cases e with
  | start t =>
    obtain ⟨fresh, eq⟩ := Option.ite_none_right_eq_some.mp taken
    obtain rfl := Option.some.inj eq
    have out : t ∉ s.workers := by
      intro mem
      have worker := inv.roles.worker t mem
      rw [(inv.sound t).fresh fresh] at worker
      exact absurd worker (by decide)
    exact inv.born
      { fresh, sound := sound_started, running := rfl, empty := rfl, more := fun _ => id
        only := fun _ => .inl, mode := .inl ⟨rfl, out⟩ }
  | enter t e =>
    obtain ⟨⟨running, locks, mode⟩, eq⟩ := Option.ite_none_right_eq_some.mp taken
    obtain rfl := Option.some.inj eq
    refine inv.recode fun alive => ?_
    obtain ⟨h', keeps⟩ := (inv.sound t).keeps alive
    have nothing : (s.thread t).hold = Hold.nothing := by
      cases held : (s.thread t).hold with
      | mk locks' mode' =>
        rw [held] at locks mode
        exact congrArg₂ Hold.mk locks mode
    rw [nothing] at keeps ⊢
    exact ⟨h', .seq (keeps_entry e) keeps⟩
  | turn t d =>
    obtain ⟨running, mapped⟩ := Option.ite_none_right_eq_some.mp taken
    obtain ⟨c, resolved, rfl⟩ := Option.map_eq_some_iff.mp mapped
    refine inv.recode fun alive => ?_
    obtain ⟨h', keeps⟩ := (inv.sound t).keeps alive
    exact ⟨h', keeps.resolve keeps_body resolved⟩
  | act t =>
    obtain ⟨running, bound⟩ := Option.ite_none_right_eq_some.mp taken
    obtain ⟨a, next, done⟩ := Option.bind_eq_some_iff.mp bound
    exact inv.perform running next done
  | create t w =>
    obtain ⟨⟨running, next, fresh⟩, eq⟩ := Option.ite_none_right_eq_some.mp taken
    obtain rfl := Option.some.inj eq
    obtain ⟨plain, locks⟩ := (inv.sound t).allowed running next
    have sweep : s.Holds t .sweepLock := by
      unfold Holds
      rw [locks]
      exact List.mem_cons_self
    have advanced := inv.quiet running next rfl
    have ne : w ≠ t := by
      rintro rfl
      rw [running] at fresh
      cases fresh
    have childless (u : T) : ((s.advance t .createWorker).thread u).hold.mode ≠ .child := by
      by_cases eq : u = t
      · subst eq
        rw [advance_thread_self]
        change (s.thread u).hold.mode ≠ _
        rw [plain]
        exact nofun
      · rw [advance_thread_of_ne s _ eq]
        exact (inv.alone sweep plain).2 u
    exact advanced.born
      { fresh := (advance_status s t _ w).trans fresh
        sound := sound_worker
        running := rfl
        empty := rfl
        more := fun _ => List.mem_cons_of_mem w
        only := fun _ mem => (List.mem_cons.mp mem).symm
        mode := .inr ⟨.inl rfl, List.mem_cons_self, childless⟩ }
  | freeze t =>
    obtain ⟨⟨running, stopped, program⟩, eq⟩ := Option.ite_none_right_eq_some.mp taken
    obtain rfl := Option.some.inj eq
    exact inv.freeze running stopped program

theorem inv_initial (main : T) : (initial main).Inv := by
  have thread (t : T) : (initial main).thread t =
      if t = main then { Thread.unborn with status := .running } else Thread.unborn := by
    simp only [initial, Function.update_apply]
  have hold (t : T) : ((initial main).thread t).hold = Hold.nothing := by
    rw [thread]
    split
    · rfl
    · rfl
  have holds (t : T) (l : Lock) : ¬ (initial main).Holds t l := by
    unfold Holds
    rw [hold]
    exact nofun
  have plain (t : T) : ((initial main).thread t).hold.mode = .plain := congrArg Hold.mode (hold t)
  constructor
  · intro t
    rw [thread]
    split
    · exact sound_started
    · refine ⟨Hold.sound_nothing, ?_, fun _ => rfl⟩
      rintro (running | frozen)
      · cases running
      · cases frozen
  · refine ⟨?_, ?_⟩
    · intro l
      refine iff_of_false nofun ?_
      rintro ⟨t, held⟩
      exact holds t l held
    · intro t u l held
      exact absurd held (holds t l)
  · constructor
    · intro t
      rw [plain]
      exact iff_of_false nofun nofun
    · exact fun t => nofun
    · intro t frozen
      rw [thread] at frozen
      split at frozen
      · cases frozen
      · cases frozen
    · exact fun w => nofun
    · intro w _ worker
      rw [plain] at worker
      exact absurd worker (by decide)
    · intro t child
      rw [plain] at child
      cases child
  · intro t _ l held
    exact absurd held (holds t l)

theorem Reachable.inv {main : T} (reached : Reachable main s) : s.Inv :=
  reached.invariant (inv_initial main) fun _ _ _ inv _ taken => inv.step taken

/-! ## Waiting -/

/-- How far up its locks put a thread; a worker is above every lock but its
mutex. -/
def level (h : Hold) : Nat :=
  match h.locks with
  | [] => if h.mode.Worker then Lock.workLock.rank else 0
  | k :: _ => k.rank + 1

omit [DecidableEq T] in
theorem Inv.wants (inv : s.Inv) (wants : s.Wants t l) : (s.thread t).hold.MayLock l := by
  obtain ⟨alive, next⟩ := wants
  obtain ⟨h', keeps⟩ := (inv.sound t).keeps alive
  rcases next with next | next
  · exact keeps.allowed not_false next
  · exact keeps.allowed not_false next

theorem level_le {h : Hold} (may : h.MayLock l) : level h ≤ l.rank := by
  obtain ⟨locks, mode⟩ := h
  obtain ⟨below, may⟩ := may
  cases locks with
  | cons k locks => exact below k List.mem_cons_self
  | nil =>
    unfold level
    simp only
    split
    · next worker =>
      rcases worker with rfl | rfl | rfl
      · exact may.elim
      · obtain rfl := may
        exact Nat.le_refl _
      · obtain rfl := may
        exact Nat.le_refl _
    · exact Nat.zero_le _

theorem rank_lt_level {h : Hold} (sound : h.Sound) (held : l ∈ h.locks) : l.rank < level h := by
  obtain ⟨locks, mode⟩ := h
  cases locks with
  | nil => cases held
  | cons k locks =>
    rcases List.mem_cons.mp held with rfl | mem
    · exact Nat.lt_succ_self _
    · exact ((List.pairwise_cons.mp sound.ordered).1 l mem).trans (Nat.lt_succ_self _)

theorem le_level_of_worker {h : Hold} (sound : h.Sound) (worker : h.mode.Worker) :
    Lock.workLock.rank ≤ level h := by
  obtain ⟨locks, mode⟩ := h
  cases locks with
  | nil =>
    unfold level
    simp only
    rw [if_pos worker]
  | cons k locks =>
    obtain rfl := sound.worker worker k List.mem_cons_self
    exact Nat.le_succ _

omit [DecidableEq T] in
/-- Where a thread may be stopped it holds at most the list of caches. -/
theorem Inv.frozen_holds (inv : s.Inv) (frozen : (s.thread t).status = .frozen)
    (held : s.Holds t l) : l = .cacheListLock := by
  obtain ⟨program, stopped⟩ := inv.roles.frozen t frozen
  obtain ⟨u, stopper⟩ := Option.ne_none_iff_exists'.mp stopped
  have stopping := (inv.roles.stopping u).mpr stopper
  have ne : t ≠ u := by
    rintro rfl
    rw [inv.roles.stopper t stopper] at frozen
    cases frozen
  have others (k : Lock) (mem : k ∈ (s.thread t).hold.locks) : k ∉ Hold.world ++ [.sweepLock] :=
    fun has => ne (inv.owned.unique mem ((inv.sound u).hold.stopping stopping k has))
  rcases (inv.sound t).hold.of_world_held held others with list | rfl
  · exact list
  · rcases (inv.sound t).hold.work held with mode | worker
    · have same := (inv.roles.stopping t).mp mode
      exact absurd (Option.some.inj (same.symm.trans stopper)) ne
    · exact absurd worker program

/-- Asleep until a sweep starts a round, with no round to see. -/
def Idle (s : State T) (w : T) : Prop :=
  (s.thread w).Alive ∧ (s.thread w).code.head = some .awaitGo ∧ (s.thread w).seen = s.round

omit [DecidableEq T] in
theorem Inv.allowed (inv : s.Inv) (alive : (s.thread t).Alive)
    (next : (s.thread t).code.head = some a) : (s.thread t).hold.Allowed a := by
  obtain ⟨h', keeps⟩ := (inv.sound t).keeps alive
  exact keeps.allowed not_false next

omit [DecidableEq T] in
/-- Nobody waits for an idle worker. -/
theorem Inv.not_waitsFor_idle (inv : s.Inv) (idle : s.Idle u) : ¬ s.WaitsFor t u := by
  obtain ⟨alive, next, seen⟩ := idle
  obtain ⟨mode, locks⟩ := inv.allowed alive next
  intro waits
  cases waits with
  | lock _ held =>
    unfold Holds at held
    rw [locks] at held
    cases held
  | stopped _ stopper =>
    rw [(inv.roles.stopping u).mpr stopper] at mode
    cases mode
  | worker _ _ _ starting =>
    rw [starting] at mode
    cases mode
  | done _ _ _ unfinished => exact unfinished ⟨mode, seen⟩
  | go _ _ _ held =>
    unfold Holds at held
    rw [locks] at held
    cases held

omit [DecidableEq T] in
/-- A thread waits for one further up, an idle worker apart. -/
theorem Inv.level_lt (inv : s.Inv) (waits : s.WaitsFor t u) (busy : ¬ s.Idle t) :
    level (s.thread t).hold < level (s.thread u).hold := by
  cases waits with
  | lock wants held =>
    exact (level_le (inv.wants wants)).trans_lt (rank_lt_level (inv.sound u).hold held)
  | stopped frozen stopper =>
    have stopping := (inv.roles.stopping u).mpr stopper
    have huge : Lock.hugeLock.rank < level (s.thread u).hold :=
      rank_lt_level (inv.sound u).hold ((inv.sound u).hold.stopping stopping _ (by decide))
    refine lt_of_le_of_lt ?_ huge
    cases held : (s.thread t).hold.locks with
    | nil =>
      unfold level
      rw [held]
      simp only
      rw [if_neg (inv.roles.frozen t frozen).1]
      exact Nat.zero_le _
    | cons k locks =>
      have mem : s.Holds t k := by
        unfold Holds
        rw [held]
        exact List.mem_cons_self
      obtain rfl := inv.frozen_holds frozen mem
      unfold level
      rw [held]
      exact (by decide : Lock.cacheListLock.rank + 1 ≤ Lock.hugeLock.rank)
  | worker alive next newest starting =>
    obtain ⟨-, locks⟩ := inv.allowed alive next
    refine lt_of_lt_of_le ?_ (le_level_of_worker (inv.sound u).hold (.inl starting))
    unfold level
    rw [locks]
    exact (by decide : Lock.sweepLock.rank + 1 < Lock.workLock.rank)
  | done alive next mem _ =>
    obtain ⟨-, locks⟩ := inv.allowed alive next
    refine lt_of_lt_of_le ?_ (le_level_of_worker (inv.sound u).hold (inv.roles.worker u mem))
    unfold level
    rw [locks]
    exact (by decide : Lock.hugeLock.rank + 1 < Lock.workLock.rank)
  | go alive next seen _ => exact absurd ⟨alive, next, seen⟩ busy

omit [DecidableEq T] in
theorem Inv.busy_of_awaited (inv : s.Inv) (waits : Relation.TransGen s.WaitsFor t u) :
    ¬ s.Idle u := by
  intro idle
  cases waits with
  | single waits => exact inv.not_waitsFor_idle idle waits
  | tail _ waits => exact inv.not_waitsFor_idle idle waits

omit [DecidableEq T] in
theorem Inv.acyclic (inv : s.Inv) (t : T) : ¬ Relation.TransGen s.WaitsFor t t := by
  have up {a b : T} (waits : Relation.TransGen s.WaitsFor a b) (busy : ¬ s.Idle a) :
      level (s.thread a).hold < level (s.thread b).hold := by
    induction waits with
    | single waits => exact inv.level_lt waits busy
    | tail earlier waits inductionHypothesis =>
      exact inductionHypothesis.trans (inv.level_lt waits (inv.busy_of_awaited earlier))
  intro cycle
  exact Nat.lt_irrefl _ (up cycle (inv.busy_of_awaited cycle))

/-- Whatever the threads do, locks are taken in one order, the sweep takes none
that a stopped thread holds, none is left behind by a fork, and no threads wait
for each other in a circle. -/
theorem no_circular_wait {main : T} (reached : Reachable main s) :
    (∀ t l, s.Wants t l → ∀ k, s.Holds t k → k.rank < l.rank) ∧
    (∀ t u l, s.stopper = some t → s.Wants t l → (s.thread u).status = .frozen → ¬ s.Holds u l) ∧
    (∀ t u l, s.Wants t l → (s.thread u).status = .gone → ¬ s.Holds u l) ∧
    ∀ t, ¬ Relation.TransGen s.WaitsFor t t := by
  have inv := reached.inv
  refine ⟨?_, ?_, ?_, inv.acyclic⟩
  · intro t l wants k held
    exact (inv.wants wants).1 k held
  · intro t u l stopper wants frozen held
    obtain rfl := inv.frozen_holds frozen held
    obtain ⟨-, may⟩ := inv.wants wants
    rw [(inv.roles.stopping t).mpr stopper] at may
    rcases may with no | no
    · cases no
    · cases no
  · intro t u l wants gone held
    obtain ⟨rfl, v, child⟩ := inv.gone u gone l held
    obtain ⟨-, may⟩ := inv.wants wants
    obtain ⟨running, others⟩ := inv.roles.child v child
    by_cases eq : t = v
    · subst eq
      rw [child] at may
      obtain ⟨_, no⟩ := may
      cases no
    · rw [others t eq wants.1] at may
      exact absurd rfl may.1

/-- `__weavec_rt_size` of a huge block, up to its lock. -/
def sizeUpToLock (t : Nat) : List (Event Nat) :=
  [.enter t .size, .turn t .left, .turn t .left, .turn t .right, .act t, .turn t .go, .turn t .go,
    .turn t .go]

/-- While one thread waits for another that holds the huge blocks' lock. -/
theorem no_circular_wait_two : ∃ s : State Nat, Reachable 0 s ∧ s.WaitsFor 1 0 ∧
    ∀ t, ¬ Relation.TransGen s.WaitsFor t t := by
  obtain ⟨s, run, seen⟩ : ∃ s : State Nat, Reachable 0 s ∧
      ((s.thread 1).status, (s.thread 1).code.head, (s.thread 0).hold.locks) =
        (.running, some (.lock .hugeLock), [.hugeLock]) :=
    Run.exists_exec ([.start 1] ++ sizeUpToLock 0 ++ [.act 0] ++ sizeUpToLock 1)
      (by decide +kernel)
  obtain ⟨running, rest⟩ := Prod.mk.inj seen
  obtain ⟨next, locks⟩ := Prod.mk.inj rest
  have held : s.Holds 0 .hugeLock := by
    unfold Holds
    rw [locks]
    exact List.mem_cons_self
  exact ⟨s, run, .lock ⟨.inl running, .inl next⟩ held, (no_circular_wait run).2.2.2⟩

end State

end WeaveC.Locks
