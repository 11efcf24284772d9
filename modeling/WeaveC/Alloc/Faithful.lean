import WeaveC.Alloc.Served

/-!
# The allocator serves every request

In every run of a program that gives back and writes only the blocks it has, the
allocator does what a store of blocks may do: it hands out zeroed blocks that lie
apart from all others, a resized block keeps its bytes, and no other call's step
changes a byte of a block.  No such program is reported.
-/

namespace WeaveC.Alloc

open WeaveC.Runtime WeaveC.Library

variable {T : Type} {A : Arena} {place : Slot → Place T} {s s' : State T} {e : Event T}
  {w w' : Filled T} {x : Slot} {p q n m a : Nat} {t u : T} {value : UInt8} {values : List UInt8}
  {j j' : Joint T} {d : Deed T} {hands : T → List Nat}

/-! ## A store of the program -/

/-- The address is in neither the block at `q` nor the block's slot. -/
structure State.Misses (A : Arena) (s : State T) (a q : Nat) : Prop where
  slot : ∀ x m, s.SlotBlock A x q m → ¬ InRange q (s.heap.table.slotBytes x) a
  block : ∀ m, s.BlockAt A q m → ¬ InRange q m a

/-- A byte of one block is in no other. -/
theorem State.BlockAt.misses (pages : 16 ∣ A.page) (ok : Sound A s) (fits : s.Fits)
    (block : s.BlockAt A p n) (inside : InRange p n a) (other : p ≠ q) : s.Misses A a q := by
  obtain ⟨place, partition⟩ := ok.places
  constructor
  · intro x m block' inside'
    rw [← block'.base] at inside'
    have arena := partition.inArena_of_slot (block'.used partition) inside'
    rcases block with ⟨y, block⟩ | ⟨b, mem, -, rfl, rfl⟩
    · have small := block.small fits
      have own : InRange (s.heap.table.slotBase A y) (s.heap.table.slotBytes y) a := by
        rw [block.base]
        exact ⟨inside.1, by have := inside.2; omega⟩
      obtain rfl := block.unique partition (block'.used partition) own inside'
      exact other (block.base.symm.trans block'.base)
    · obtain ⟨above, below⟩ := (ok.blocks.block b mem).object pages inside
      rw [(ok.blocks.block b mem).not_inArena above below] at arena
      cases arena
  · intro m block' inside'
    have apart := block.apart pages ok fits block' other
    unfold InRange at *
    omega

/-- Memory that is not the allocator's is in no block. -/
theorem State.Elsewhere.misses (pages : 16 ∣ A.page) (ok : Sound A s) (fits : s.Fits)
    (outside : s.Elsewhere A a) (q : Nat) : s.Misses A a q := by
  obtain ⟨place, partition⟩ := ok.places
  have slot (x : Slot) (m : Nat) (block : s.SlotBlock A x q m) :
      ¬ InRange q (s.heap.table.slotBytes x) a := by
    intro inside
    rw [← block.base] at inside
    have arena := partition.inArena_of_slot (block.used partition) inside
    rw [outside.1] at arena
    cases arena
  refine ⟨slot, fun m block inside => ?_⟩
  rcases block with ⟨x, block⟩ | ⟨b, mem, -, rfl, rfl⟩
  · have small := block.small fits
    exact slot x m block ⟨inside.1, by have := inside.2; omega⟩
  · exact outside.2 b mem ((ok.blocks.block b mem).object pages inside)

namespace Filled

theorem Keeps.stored (keeps : w.Keeps A q values) (misses : w.state.Misses A a q) :
    (w.stored a value).Keeps A q values := by
  refine ⟨keeps.start, keeps.block, (valuesAt_congr fun b inside => ?_).trans keeps.memory⟩
  refine Function.update_of_ne ?_ _ _
  rintro rfl
  exact misses.block _ keeps.block inside

theorem Releasing.stored (on : w.Releasing A t p n) : (w.stored a value).Releasing A t p n := by
  cases on with
  | starts point => exact .starts point
  | claims point block => exact .claims point ⟨block.word, block.base, block.returned⟩

/-- A store that misses the blocks in a call's hands. -/
theorem Doing.stored (ok : Zeroed A w) {task : Option (Store.Task UInt8)} {held : List Nat}
    (doing : w.Doing A t task held) (misses : ∀ q ∈ held, w.state.Misses A a q) :
    (w.stored a value).Doing A t task held := by
  cases doing with
  | idle point => exact .idle point
  | ended rest block => exact .ended rest block
  | made rest block keeps =>
      exact .made rest block (keeps.stored (misses _ (List.mem_singleton_self _)))
  | allocates seeks locals => exact .allocates seeks locals
  | releases on keeps =>
      exact .releases on.stored (keeps.stored (misses _ (List.mem_singleton_self _)))
  | resizes point locals keeps =>
      exact .resizes point locals (keeps.stored (misses _ (List.mem_singleton_self _)))
  | moves seeks locals keeps =>
      exact .moves seeks locals (keeps.stored (misses _ (List.mem_singleton_self _)))
  | grows point locals block keeps =>
      exact .grows point locals ⟨block.word, block.base, block.returned⟩
        (keeps.stored (misses _ (List.mem_singleton_self _)))
  | @stores p size n values x point block start memory =>
      refine .stores point ⟨block.word, block.base, block.returned⟩ start ?_
      refine (valuesAt_congr fun b inside => ?_).trans memory
      obtain ⟨place, partition⟩ := ok.sound.places
      have small := partition.point t
      rw [point] at small
      change size < w.state.heap.table.slotBytes x at small
      refine Function.update_of_ne ?_ _ _
      rintro rfl
      exact (misses _ (List.mem_singleton_self _)).slot x n block
        ⟨inside.1, by have := inside.2; omega⟩
  | moved on old other block keeps =>
      exact .moved on.stored old other block
        (keeps.stored (misses _ (List.mem_cons_of_mem _ (List.mem_singleton_self _))))

end Filled

/-! ## Every step -/

/-- What every step keeps: the program's blocks hold what the store says, and each
call is at some stage of serving its request, with blocks that no other call and
not the program has. -/
structure Serves (A : Arena) (j : Joint T) (hands : T → List Nat) : Prop where
  zeroed : Zeroed A j.filled
  blocks : ∀ p values, j.store.blocks p = some values → j.filled.Keeps A p values
  doing : ∀ t, j.filled.Doing A t (j.store.task t) (hands t)
  own : ∀ t, ∀ p ∈ hands t, j.store.blocks p = none ∧ ∀ u, p ∈ hands u → u = t

/-- And a thread that is in no call has no request. -/
structure Faithful (A : Arena) (j : Joint T) (hands : T → List Nat) : Prop
    extends Serves A j hands where
  idle : ∀ t, (j.filled.state.thread t).point = .idle → j.store.task t = none

theorem faithful_initial (A : Arena) (byte memory : Nat → UInt8) :
    Faithful A (.initial A byte memory : Joint T) fun _ => [] where
  zeroed := .initial A byte memory
  blocks _ _ found := by cases found
  doing _ := .idle rfl
  own _ _ mem := by cases mem
  idle _ _ := rfl

namespace Serves

/-- A step takes a slot from no other thread. -/
theorem alone (ok : Serves A j hands) (e : Event T) : j.filled.state.Alone e := by
  intro x takes u other
  obtain ⟨p, n, block, mem⟩ := (ok.doing e.thread).takes takes
  refine ⟨fun resizing => other ?_, block.returned u⟩
  have held := (ok.doing u).resizing resizing
  rw [block.base] at held
  exact (ok.own e.thread p mem).2 u held

theorem touched (ok : Serves A j hands) (on : p ∈ j.filled.state.touched A t) : p ∈ hands t :=
  (ok.doing t).touched on

variable [DecidableEq T]

/-- The return of a call: the store may give what the call has made. -/
theorem answer (pages : 16 ∣ A.page) (ok : Serves A j hands)
    (idle : (j.filled.state.thread t).point = .idle) (under : j.store.task t ≠ none) :
    j.store.Admits (.answer t (j.filled.locals t).block) ∧
      Serves A ⟨j.filled, j.store.act (.answer t (j.filled.locals t).block)⟩
        (Function.update hands t []) ∧
        (j.store.act (.answer t (j.filled.locals t).block)).task =
          Function.update j.store.task t none := by
  obtain ⟨task, found⟩ := Option.ne_none_iff_exists'.mp under
  have doing := ok.doing t
  rw [found] at doing
  -- the call has in its hands what the answer gives, and no more
  obtain ⟨held, keeps⟩ : hands t = ((task.block (j.filled.locals t).block).map Prod.fst).toList ∧
      ∀ block ∈ task.block (j.filled.locals t).block, j.filled.Keeps A block.1 block.2 := by
    have turns {point : Point} (here : (j.filled.state.thread t).point = point)
        (other : point ≠ .idle) : False := other (here.symm.trans idle)
    have seeks {size : Nat} {purpose : Purpose}
        (aim : (j.filled.state.thread t).point.aim = .seeks size purpose) : False := by
      rw [idle] at aim
      cases aim
    have releasing {p n : Nat} (on : j.filled.Releasing A t p n) : False := by
      cases on with
      | starts point | claims point => exact turns point Point.noConfusion
    generalize hands t = held at doing
    cases doing with
    | ended rest block =>
        rw [block]
        exact ⟨rfl, fun _ mem => by cases mem⟩
    | made rest block keeps =>
        rw [block]
        refine ⟨rfl, fun block mem => ?_⟩
        obtain rfl := Option.some.inj mem
        exact keeps
    | allocates aim | moves aim => exact (seeks aim).elim
    | releases on | moved on => exact (releasing on).elim
    | resizes point | grows point | stores point => exact (turns point Point.noConfusion).elim
  have given : (j.store.task t).bind (fun task => task.block (j.filled.locals t).block) =
      task.block (j.filled.locals t).block := by
    rw [found]
    rfl
  have settled : j.store.act (.answer t (j.filled.locals t).block) =
      j.store.settle t (task.block (j.filled.locals t).block) :=
    congrArg (j.store.settle t) given
  rw [settled]
  -- a block that the answer gives is none that the program has
  have fresh (block : Nat × List UInt8) (mem : block ∈ task.block (j.filled.locals t).block)
      (q : Nat) (values : List UInt8) (listed : j.store.blocks q = some values) : q ≠ block.1 := by
    rintro rfl
    have none := (ok.own t block.1 (by rw [held, Option.mem_def.mp mem]; exact List.mem_singleton_self _)).1
    rw [listed] at none
    cases none
  refine ⟨⟨task, found, fun block mem q values listed => ⟨fresh block mem q values listed, ?_⟩⟩,
    ⟨ok.zeroed, fun q values listed => ?_, fun u => ?_, fun u q mem => ?_⟩, rfl⟩
  · exact (ok.blocks q values listed).block.apart pages ok.zeroed.sound ok.zeroed.fits
      (keeps block mem).block (fresh block mem q values listed)
  · cases block : task.block (j.filled.locals t).block with
    | none =>
        rw [block] at listed
        exact ok.blocks q values listed
    | some given =>
        rw [block] at listed
        change Function.update j.store.blocks given.1 (some given.2) q = some values at listed
        by_cases same : q = given.1
        · subst same
          rw [Function.update_self] at listed
          obtain rfl := Option.some.inj listed
          exact keeps given block
        · rw [Function.update_of_ne same] at listed
          exact ok.blocks q values listed
  · change j.filled.Doing A u (Function.update j.store.task t none u) _
    by_cases self : u = t
    · subst self
      rw [Function.update_self, Function.update_self]
      exact .idle idle
    · rw [Function.update_of_ne self, Function.update_of_ne self]
      exact ok.doing u
  · by_cases self : u = t
    · subst self
      rw [Function.update_self] at mem
      cases mem
    · rw [Function.update_of_ne self] at mem
      obtain ⟨none, one⟩ := ok.own u q mem
      refine ⟨?_, fun v mem' => ?_⟩
      · cases block : task.block (j.filled.locals t).block with
        | none => exact none
        | some given =>
            change Function.update j.store.blocks given.1 (some given.2) q = _
            have other : q ≠ given.1 := by
              rintro rfl
              refine self (one t ?_).symm
              rw [held, block]
              exact List.mem_singleton_self _
            rw [Function.update_of_ne other]
            exact none
      · by_cases self' : v = t
        · subst self'
          rw [Function.update_self] at mem'
          cases mem'
        · rw [Function.update_of_ne self'] at mem'
          exact one v mem'

/-- A step inside the allocator. -/
theorem inside (pages : 16 ∣ A.page) (ok : Serves A j hands)
    (taken : j.filled.state.step A e = some s') (called : e.call = none) :
    ∃ hands', Serves A ⟨j.filled.next A e s', j.store⟩ hands' ∧ j.store.task e.thread ≠ none := by
  have entered : (j.filled.state.thread e.thread).point ≠ .idle := by
    intro idle
    have found := (State.step_parts taken).1
    unfold State.stepOf at found
    rw [called] at found
    dsimp only at found
    unfold Thread.step at found
    rw [idle] at found
    cases found
  have doing := ok.doing e.thread
  cases under : j.store.task e.thread with
  | none =>
      rw [under] at doing
      generalize hands e.thread = held at doing
      cases doing with
      | idle point => exact absurd point entered
  | some task =>
      rw [under] at doing
      obtain ⟨held, next, fresh⟩ := doing.own pages ok.zeroed taken called entered
      -- a block that the step makes is no other call's and not the program's
      have apart (q : Nat) (mem : q ∈ held) (none : j.store.blocks q ≠ Option.none ∨
          ∃ u, u ≠ e.thread ∧ q ∈ hands u) : False := by
        rcases fresh q mem with old | fresh
        · rcases none with some | ⟨u, other, mem'⟩
          · exact some (ok.own e.thread q old).1
          · exact other ((ok.own e.thread q old).2 u mem')
        · rcases none with some | ⟨u, other, mem'⟩
          · obtain ⟨values, listed⟩ := Option.ne_none_iff_exists'.mp some
            exact fresh _ (ok.blocks q values listed).block
          · obtain ⟨m, block⟩ := (ok.doing u).blockAt mem'
            exact fresh m block
      refine ⟨Function.update hands e.thread held, ⟨ok.zeroed.step pages (ok.alone e) taken _,
        fun p values listed => ?_, fun u => ?_, fun u q mem => ?_⟩, Option.some_ne_none task⟩
      · refine (ok.blocks p values listed).step pages ok.zeroed taken fun on => ?_
        rw [(ok.own e.thread p (ok.touched on)).1] at listed
        cases listed
      · dsimp only
        by_cases self : u = e.thread
        · subst self
          rw [Function.update_self, under]
          exact next
        · rw [Function.update_of_ne self]
          refine (ok.doing u).step pages ok.zeroed taken self fun p mem on => ?_
          exact self ((ok.own e.thread p (ok.touched on)).2 u mem)
      · by_cases self : u = e.thread
        · subst self
          rw [Function.update_self] at mem
          refine ⟨?_, fun v mem' => ?_⟩
          · by_contra some
            exact apart q mem (.inl some)
          · by_contra other
            rw [Function.update_of_ne other] at mem'
            exact apart q mem (.inr ⟨v, other, mem'⟩)
        · rw [Function.update_of_ne self] at mem
          refine ⟨(ok.own u q mem).1, fun v mem' => ?_⟩
          by_cases self' : v = e.thread
          · subst self'
            rw [Function.update_self] at mem'
            exact (apart q mem' (.inr ⟨u, self, mem⟩)).elim
          · rw [Function.update_of_ne self'] at mem'
            exact (ok.own u q mem).2 v mem'

/-- The start of a call, with the blocks that it takes from the program. -/
theorem started (pages : 16 ∣ A.page) (ok : Serves A j hands)
    (taken : j.filled.state.step A e = some s')
    (idle : (j.filled.state.thread e.thread).point = .idle)
    {blocks : Nat → Option (List UInt8)} {task : Store.Task UInt8} {held : List Nat}
    (fewer : ∀ p values, blocks p = some values → j.store.blocks p = some values)
    (given : ∀ p ∈ held, blocks p = none ∧ j.store.blocks p ≠ none)
    (doing : (j.filled.next A e s').Doing A e.thread (some task) held) :
    Serves A ⟨j.filled.next A e s', blocks, Function.update j.store.task e.thread (some task)⟩
      (Function.update hands e.thread held) := by
  have untouched (p : Nat) : p ∉ j.filled.state.touched A e.thread := by
    unfold State.touched
    rw [idle]
    exact Option.not_mem_none p
  refine ⟨ok.zeroed.step pages (ok.alone e) taken _, fun p values listed => ?_, fun u => ?_,
    fun u q mem => ?_⟩
  · exact (ok.blocks p values (fewer p values listed)).step pages ok.zeroed taken (untouched p)
  · dsimp only
    by_cases self : u = e.thread
    · subst self
      rw [Function.update_self, Function.update_self]
      exact doing
    · rw [Function.update_of_ne self, Function.update_of_ne self]
      exact (ok.doing u).step pages ok.zeroed taken self fun p _ => untouched p
  · dsimp only
    by_cases self : u = e.thread
    · subst self
      rw [Function.update_self] at mem
      refine ⟨(given q mem).1, fun v mem' => ?_⟩
      by_contra other
      rw [Function.update_of_ne other] at mem'
      exact (given q mem).2 (ok.own v q mem').1
    · rw [Function.update_of_ne self] at mem
      obtain ⟨none, one⟩ := ok.own u q mem
      refine ⟨?_, fun v mem' => ?_⟩
      · by_contra some
        obtain ⟨values, listed⟩ := Option.ne_none_iff_exists'.mp some
        rw [fewer q values listed] at none
        cases none
      · by_cases self' : v = e.thread
        · subst self'
          rw [Function.update_self] at mem'
          exact absurd none (given q mem').2
        · rw [Function.update_of_ne self'] at mem'
          exact one v mem'

/-- A call that takes the block at `p`, or none when the program has none
there. -/
theorem took (pages : 16 ∣ A.page) (ok : Serves A j hands)
    (taken : j.filled.state.step A e = some s')
    (idle : (j.filled.state.thread e.thread).point = .idle)
    {task : List UInt8 → Store.Task UInt8}
    (doing : ∀ values, j.store.blocks p = some values →
      (j.filled.next A e s').Doing A e.thread (some (task values)) [p])
    (none : j.store.blocks p = none →
      (j.filled.next A e s').Doing A e.thread (some .nothing) []) :
    ∃ hands', Serves A ⟨j.filled.next A e s', j.store.take e.thread p task⟩ hands' := by
  unfold Store.take
  cases listed : j.store.blocks p with
  | none => exact ⟨_, ok.started pages taken idle (fun _ _ same => same) (fun _ mem => by cases mem)
      (none listed)⟩
  | some values =>
      refine ⟨_, ok.started pages taken idle (fun q values' after => ?_) (fun q mem => ?_)
        (doing values listed)⟩
      · by_cases same : q = p
        · subst same
          rw [Function.update_self] at after
          cases after
        · rw [Function.update_of_ne same] at after
          exact after
      · obtain rfl := List.mem_singleton.mp mem
        rw [Function.update_self, listed]
        exact ⟨rfl, Option.some_ne_none values⟩

/-- The start of a call. -/
theorem call (pages : 16 ∣ A.page) (ok : Serves A j hands)
    (taken : j.filled.state.step A e = some s') {c : Call} (called : e.call = some c)
    (lawful : j.store.Lawful (.request e.thread c.request)) :
    (j.filled.state.thread e.thread).point = .idle ∧
      ∃ hands', Serves A ⟨j.filled.next A e s', j.store.ask e.thread c.request⟩ hands' := by
  have found := (State.step_parts taken).1
  unfold State.stepOf at found
  rw [called] at found
  dsimp only at found
  split_ifs at found with allowed
  obtain ⟨th', started', eq⟩ := Option.map_eq_some_iff.mp found
  obtain ⟨-, thread⟩ := Prod.mk.inj eq
  subst thread
  have idle := allowed.1
  have locals : (j.filled.next A e s').locals e.thread = .enter c := by
    unfold Filled.next Filled.localsAfter
    rw [called]
    exact Function.update_self _ _ _
  have keeps {p : Nat} {values : List UInt8} (listed : j.store.blocks p = some values) :
      (j.filled.next A e s').Keeps A p values := by
    refine (ok.blocks p values listed).step pages ok.zeroed taken ?_
    unfold State.touched
    rw [idle]
    exact Option.not_mem_none p
  refine ⟨idle, ?_⟩
  -- a call that asks for a block of `size` bytes
  have allocates {size alignment : Nat} (enter : Locals.enter c = ⟨0, 0, 0⟩)
      (goes : (j.filled.state.thread e.thread).allocate A size alignment .request
        e.answer.cacheMapped = s'.thread e.thread) :
      ∃ hands', Serves A ⟨j.filled.next A e s', j.store.ask e.thread (.allocate size)⟩ hands' := by
    refine ⟨_, ok.started pages taken idle (fun _ _ same => same)
      (fun _ mem => absurd mem List.not_mem_nil) ?_⟩
    rcases allocate_aim (A := A) (j.filled.state.thread e.thread) size alignment .request
      e.answer.cacheMapped with seeks | ⟨-, refused⟩
    · rw [goes] at seeks
      exact .allocates seeks (locals.trans enter)
    · rw [goes] at refused
      refine .ended ?_ ?_
      · change (s'.thread e.thread).point.aim = .rest
        rw [refused]
        rfl
      · rw [locals, enter]
        rfl
  cases c with
  | alloc size alignment => exact allocates rfl (Option.some.inj started')
  | free p =>
      have goes := Option.some.inj started'
      refine ok.took pages taken idle (fun values listed => ?_) fun none => ?_
      · rw [if_neg (ok.blocks p values listed).start] at goes
        refine .releases (.starts ?_) (keeps listed)
        change (s'.thread e.thread).point = _
        rw [← goes]
        rfl
      · have zero : p = 0 := lawful.resolve_right fun some => by
          rw [none] at some
          cases some
        rw [if_pos zero] at goes
        refine .ended ?_ rfl
        change (s'.thread e.thread).point.aim = .rest
        rw [← goes, idle]
        rfl
  | realloc p size =>
      have goes := Option.some.inj started'
      by_cases zero : p = 0
      · rw [if_pos zero] at goes
        subst zero
        exact allocates rfl goes
      · rw [if_neg zero] at goes
        have request : (Call.realloc p size).request = .resize p size := if_neg zero
        rw [request] at lawful ⊢
        refine ok.took pages taken idle (fun values listed => ?_) fun none => ?_
        · refine .resizes ?_ locals (keeps listed)
          change (s'.thread e.thread).point = _
          rw [← goes]
          rfl
        · have some : (j.store.blocks p).isSome := lawful
          rw [none] at some
          cases some
  | exit =>
      unfold Thread.call at started'
      split_ifs at started'
      have goes := Option.some.inj started'
      refine ⟨_, ok.started pages taken idle (fun _ _ same => same)
        (fun _ mem => absurd mem List.not_mem_nil) (.ended ?_ rfl)⟩
      change (s'.thread e.thread).point.aim = .rest
      rw [← goes]
      rfl

end Serves

/-! ## Every run -/

namespace Faithful

variable [DecidableEq T]

/-- After a step's own part, a thread that has returned is answered. -/
theorem of_serves (pages : 16 ∣ A.page) {e : Event T} {store : Store T UInt8}
    (ok : Serves A ⟨w', store⟩ hands) (under : store.task e.thread ≠ none)
    (idle : ∀ t, t ≠ e.thread → (w'.state.thread t).point = .idle → store.task t = none) :
    let actions := if (w'.state.thread e.thread).point = .idle then
      [Store.Action.answer e.thread (w'.locals e.thread).block] else []
    store.AdmitsAll actions ∧ ∃ hands', Faithful A ⟨w', store.acts actions⟩ hands' := by
  dsimp only
  split_ifs with returned
  · obtain ⟨admits, serves, task⟩ := ok.answer pages returned under
    refine ⟨⟨admits, trivial⟩, _, { serves with idle := fun t still => ?_ }⟩
    change (store.act (.answer e.thread (w'.locals e.thread).block)).task t = none
    rw [task]
    by_cases self : t = e.thread
    · subst self
      exact Function.update_self _ _ _
    · rw [Function.update_of_ne self]
      exact idle t self still
  · refine ⟨trivial, _, { ok with idle := fun t still => ?_ }⟩
    by_cases self : t = e.thread
    · subst self
      exact absurd still returned
    · exact idle t self still

theorem step_event (pages : 16 ∣ A.page) (ok : Faithful A j hands)
    (lawful : j.Lawful A (.step e)) (taken : j.filled.state.step A e = some s') :
    j.store.AdmitsAll (Joint.actions (.step e) (j.filled.next A e s')) ∧
      ∃ hands', Faithful A ⟨j.filled.next A e s',
        j.store.acts (Joint.actions (.step e) (j.filled.next A e s'))⟩ hands' := by
  have others (t : T) (other : t ≠ e.thread) (still : (s'.thread t).point = .idle) :
      j.store.task t = none := by
    rw [(State.step_parts taken).2 t other] at still
    exact ok.idle t still
  unfold Joint.actions
  dsimp only
  cases called : e.call with
  | none =>
      obtain ⟨hands', serves, under⟩ := ok.toServes.inside pages taken called
      exact of_serves pages serves under others
  | some c =>
      obtain ⟨idle, hands', serves⟩ := ok.toServes.call pages taken called (lawful c called)
      have none := ok.idle e.thread idle
      have asked : ∃ task, (j.store.ask e.thread c.request).task =
          Function.update j.store.task e.thread (some task) := by
        have took (p : Nat) (task : List UInt8 → Store.Task UInt8) :
            ∃ task', (j.store.take e.thread p task).task =
              Function.update j.store.task e.thread (some task') := by
          unfold Store.take
          split <;> exact ⟨_, rfl⟩
        cases c.request with
        | release p => exact took p _
        | resize p size => exact took p _
        | allocate | nothing => exact ⟨_, rfl⟩
      obtain ⟨task, asked⟩ := asked
      obtain ⟨admits, rest⟩ := of_serves (e := e) pages serves
        (by rw [asked, Function.update_self]; exact Option.some_ne_none task)
        fun t other still => by
          rw [asked, Function.update_of_ne other]
          exact others t other still
      exact ⟨⟨none, admits⟩, rest⟩

/-- A store of the program. -/
theorem step_write (pages : 16 ∣ A.page) (ok : Faithful A j hands) {i : Nat}
    (lawful : j.store.Lawful (.write p i value)) : j.store.Admits (.write p i value) ∧
      Faithful A ⟨j.filled.stored (p + i) value, j.store.act (.write p i value)⟩ hands := by
  obtain ⟨before, listed, inside⟩ := lawful
  have listed := Option.mem_def.mp listed
  have keeps := ok.blocks p before listed
  have here : InRange p before.length (p + i) :=
    ⟨Nat.le_add_right _ _, Nat.add_lt_add_left inside p⟩
  have misses {q : Nat} (other : p ≠ q) : j.filled.state.Misses A (p + i) q :=
    keeps.block.misses pages ok.zeroed.sound ok.zeroed.fits here other
  have blocks : (j.store.act (.write p i value)).blocks =
      Function.update j.store.blocks p (some (before.set i value)) := by
    unfold Store.act
    dsimp only
    rw [listed]
    rfl
  have admits : j.store.Admits (.write p i value) := Option.isSome_iff_exists.mpr ⟨before, listed⟩
  refine ⟨admits,
    { zeroed := ok.zeroed.stored pages (.inl ⟨p, _, keeps.block, here⟩) value
      blocks := fun q values found => ?_
      doing := fun t => ?_
      own := fun t q mem => ⟨?_, (ok.own t q mem).2⟩
      idle := ok.idle }⟩
  · rw [blocks] at found
    by_cases same : q = p
    · subst same
      rw [Function.update_self] at found
      obtain rfl := Option.some.inj found
      refine ⟨keeps.start, ?_, ?_⟩
      · rw [List.length_set]
        exact keeps.block
      · rw [List.length_set]
        refine (valuesAt_update inside).trans ?_
        rw [keeps.memory]
    · rw [Function.update_of_ne same] at found
      exact (ok.blocks q values found).stored (misses (Ne.symm same))
  · refine (ok.doing t).stored ok.zeroed fun q mem => misses ?_
    rintro rfl
    rw [(ok.own t p mem).1] at listed
    cases listed
  · rw [blocks]
    have other : q ≠ p := by
      rintro rfl
      rw [(ok.own t q mem).1] at listed
      cases listed
    rw [Function.update_of_ne other]
    exact (ok.own t q mem).1

omit [DecidableEq T] in
theorem step_elsewhere (pages : 16 ∣ A.page) (ok : Faithful A j hands)
    (outside : j.filled.state.Elsewhere A a) : Faithful A ⟨j.filled.stored a value, j.store⟩ hands where
  zeroed := ok.zeroed.stored pages (.inr outside) value
  blocks q values found :=
    (ok.blocks q values found).stored (outside.misses pages ok.zeroed.sound ok.zeroed.fits q)
  doing t := (ok.doing t).stored ok.zeroed fun q _ =>
    outside.misses pages ok.zeroed.sound ok.zeroed.fits q
  own := ok.own
  idle := ok.idle

theorem step (pages : 16 ∣ A.page) (ok : Faithful A j hands) (lawful : j.Lawful A d)
    (taken : j.step A d = some j') :
    j.store.AdmitsAll (Joint.actions d j'.filled) ∧ ∃ hands', Faithful A j' hands' := by
  obtain ⟨w', next, rfl⟩ := Option.map_eq_some_iff.mp taken
  cases d with
  | step e =>
      obtain ⟨s', moved, rfl⟩ := Option.map_eq_some_iff.mp next
      exact ok.step_event pages lawful moved
  | write p i value =>
      obtain rfl := Option.some.inj next
      obtain ⟨admits, faithful⟩ := ok.step_write pages lawful
      exact ⟨⟨admits, trivial⟩, hands, faithful⟩
  | elsewhere address value =>
      obtain rfl := Option.some.inj next
      exact ⟨trivial, hands, ok.step_elsewhere pages lawful⟩

end Faithful

theorem faithful_run [DecidableEq T] (pages : 16 ∣ A.page) {byte memory : Nat → UInt8}
    (run : Run (Joint.step A) (Joint.Lawful A) (.initial A byte memory) j) :
    (∃ hands, Faithful A j hands) ∧ j.store.Apart := by
  refine run.invariant (I := fun j => (∃ hands, Faithful A j hands) ∧ j.store.Apart)
    ⟨⟨_, faithful_initial A byte memory⟩, Store.apart_empty⟩ ?_
  rintro j d j' ⟨⟨hands, ok⟩, apart⟩ lawful taken
  obtain ⟨admits, next⟩ := ok.step pages lawful taken
  obtain ⟨w', -, rfl⟩ := Option.map_eq_some_iff.mp taken
  exact ⟨next, apart.acts admits⟩

/-- The allocator is a store of blocks: what it answers is what a store may, and
memory holds what the store says of each block. -/
theorem allocator_serves [DecidableEq T] (pages : 16 ∣ A.page) {byte memory : Nat → UInt8}
    (run : Run (Joint.step A) (Joint.Lawful A) (.initial A byte memory) j) :
    (∀ p values, j.store.blocks p = some values →
      p ≠ 0 ∧ valuesAt j.filled.memory p values.length = values) ∧ j.store.Apart ∧
        ∀ d j', j.Lawful A d → j.step A d = some j' →
          j.store.AdmitsAll (Joint.actions d j'.filled) := by
  obtain ⟨⟨hands, ok⟩, apart⟩ := faithful_run pages run
  refine ⟨fun p values listed => ?_, apart, fun d j' lawful taken => (ok.step pages lawful taken).1⟩
  exact ⟨(ok.blocks p values listed).start, (ok.blocks p values listed).memory⟩

/-- A thread without a cache. -/
def uncached (call : Option Call) : Deed Unit :=
  .step ⟨(), call, { Answer.sample with cacheMapped := false }⟩

/-- A block of 3 bytes, a store to the first, and a reallocation to 5. -/
def allocatedResized : List (Deed Unit) :=
  [uncached (some (.alloc 3 0)), uncached none, uncached none, uncached none, uncached none,
    uncached none, .write 0x80000000 0 7, uncached (some (.realloc 0x80000000 5)), uncached none,
    uncached none, uncached none]

theorem allocator_serves_resized : ∃ j : Joint Unit,
    Run (Joint.step .sample) (Joint.Lawful .sample)
      (.initial .sample (fun _ => 0) fun _ => 255) j ∧
      valuesAt j.filled.memory 0x80000000 5 = [7, 0, 0, 0, 0] := by
  obtain ⟨j, run, seen⟩ : ∃ j : Joint Unit, Run (Joint.step .sample) (Joint.Lawful .sample)
      (.initial .sample (fun _ => 0) fun _ => 255) j ∧
        j.store.blocks 0x80000000 = some [7, 0, 0, 0, 0] :=
    Run.exists_exec allocatedResized (by decide +kernel)
  exact ⟨j, run, ((allocator_serves (by decide) run).1 _ _ seen).2⟩

/-! ## No report -/

/-- The system maps memory that it has mapped before. -/
def State.Remaps (A : Arena) (s : State T) (e : Event T) : Prop :=
  ∃ size alignment purpose request map,
    (s.thread e.thread).point = .huge size alignment purpose ∧
      s.heap.hugeRequest A size alignment = some request ∧ e.answer.map = some map ∧
        ¬ s.heap.Unmapped A map request.mapBytes

/-- An allocation goes on, unless the system maps memory that is in use. -/
theorem seeking_goes_on {size : Nat} {purpose : Purpose} (inside : e.call = none)
    (seeks : (s.thread e.thread).point.aim = .seeks size purpose) :
    (s.stepOf A e).isSome ∨ s.Remaps A e := by
  have on (other : ¬ (s.thread e.thread).point.Turns)
      (entered : (s.thread e.thread).point ≠ .idle) : (s.stepOf A e).isSome := by
    unfold State.stepOf
    rw [inside]
    exact step_isSome A s.heap e.answer other entered
  cases point : (s.thread e.thread).point with
  | huge size alignment purpose =>
      by_cases remaps : s.Remaps A e
      · exact .inr remaps
      left
      unfold State.stepOf
      rw [inside]
      dsimp only
      unfold Thread.step
      simp only [point]
      unfold Thread.hugeAlloc
      split
      · rename_i request map asked mapped
        split_ifs with unmapped table
        · rfl
        · rfl
        · exact (remaps ⟨size, alignment, purpose, request, map, point, asked, mapped, unmapped⟩).elim
      · rfl
  | shadowLive v y =>
      left
      unfold State.stepOf
      rw [inside]
      dsimp only
      unfold Thread.step
      simp only [point]
      rfl
  | release | claim | resize | resizeShadow | resizeWord | idle =>
      rw [point] at seeks
      cases seeks
  | _ => exact .inl (on (by rw [point]; exact not_false) (by rw [point]; exact Point.noConfusion))

/-- A release of a live block goes on. -/
theorem Filled.Releasing.goes_on (ok : Zeroed A w) (inside : e.call = none)
    (on : w.Releasing A e.thread p n) (block : w.state.BlockAt A p n) :
    (w.state.stepOf A e).isSome := by
  obtain ⟨place, partition⟩ := ok.sound.places
  unfold State.stepOf
  rw [inside]
  dsimp only
  unfold Thread.step
  cases on with
  | starts point =>
      simp only [point]
      rcases block with ⟨x, block⟩ | ⟨b, mem, live, rfl, rfl⟩
      · rw [release_slot partition ok.fits block]
        rfl
      · obtain ⟨h', -, released⟩ := release_huge ok.sound ok.ordered mem live
          (w.state.thread e.thread)
        rw [released]
        rfl
  | claims point block =>
      simp only [point]
      rw [if_pos block.word]
      rfl

/-- A call of the program goes on. -/
theorem Serves.goes_on (ok : Serves A j hands) (inside : e.call = none)
    (entered : (j.filled.state.thread e.thread).point ≠ .idle) :
    (j.filled.state.stepOf A e).isSome ∨ j.filled.state.Remaps A e := by
  obtain ⟨place, partition⟩ := ok.zeroed.sound.places
  have rests (rest : (j.filled.state.thread e.thread).point.aim = .rest) :
      (j.filled.state.stepOf A e).isSome := by
    unfold State.stepOf
    rw [inside]
    exact step_isSome A _ e.answer (Point.not_turns_of_rest rest) entered
  have doing := ok.doing e.thread
  generalize hands e.thread = held at doing
  generalize j.store.task e.thread = task at doing
  cases doing with
  | idle point => exact absurd point entered
  | ended rest | made rest => exact .inl (rests rest)
  | allocates seeks | moves seeks => exact seeking_goes_on inside seeks
  | releases on keeps => exact .inl (on.goes_on ok.zeroed inside keeps.block)
  | moved on old => exact .inl (on.goes_on ok.zeroed inside old)
  | @resizes p size values point _ keeps =>
      left
      unfold State.stepOf
      rw [inside]
      dsimp only
      unfold Thread.step
      simp only [point]
      rcases keeps.block with ⟨x, block⟩ | ⟨b, mem, live, rfl, -⟩
      · rw [resize_slot partition ok.zeroed.fits block]
        split_ifs <;> rfl
      · rw [resize_huge ok.zeroed.sound ok.zeroed.ordered mem live]
        rfl
  | grows point | stores point =>
      left
      unfold State.stepOf
      rw [inside]
      dsimp only
      unfold Thread.step
      simp only [point]
      rfl

/-- No call of a program that gives back only the blocks it has is reported: it
goes on whatever the system answers, but a mapping of memory in use. -/
theorem lawful_goes_on [DecidableEq T] (pages : 16 ∣ A.page) {byte memory : Nat → UInt8}
    (run : Run (Joint.step A) (Joint.Lawful A) (.initial A byte memory) j) {t : T}
    (entered : (j.filled.state.thread t).point ≠ .idle) (answer : Answer)
    (maps : ¬ j.filled.state.Remaps A ⟨t, none, answer⟩) :
    ∃ j', j.step A (.step ⟨t, none, answer⟩) = some j' := by
  obtain ⟨⟨hands, ok⟩, -⟩ := faithful_run pages run
  have next := (ok.toServes.goes_on (e := ⟨t, none, answer⟩) rfl entered).resolve_right maps
  obtain ⟨⟨h', th'⟩, found⟩ := Option.isSome_iff_exists.mp next
  unfold Joint.step Filled.step State.step
  dsimp only
  rw [found]
  exact ⟨_, rfl⟩

theorem lawful_goes_on_released : ∃ j j' : Joint Unit,
    Run (Joint.step .sample) (Joint.Lawful .sample) (.initial .sample (fun _ => 0) fun _ => 255) j ∧
      (j.filled.state.thread ()).point = .release 0x80000000 ∧
        j.step .sample (.step ⟨(), none, .sample⟩) = some j' := by
  obtain ⟨j, run, point⟩ : ∃ j : Joint Unit, Run (Joint.step .sample) (Joint.Lawful .sample)
      (.initial .sample (fun _ => 0) fun _ => 255) j ∧
        (j.filled.state.thread ()).point = .release 0x80000000 :=
    Run.exists_exec (allocatedResized ++ [uncached (some (.free 0x80000000))]) (by decide +kernel)
  have entered : (j.filled.state.thread ()).point ≠ .idle := by
    rw [point]
    exact Point.noConfusion
  obtain ⟨j', next⟩ := lawful_goes_on (by decide) run entered .sample fun remaps => by
    obtain ⟨size, alignment, purpose, request, map, huge, -⟩ := remaps
    exact Point.noConfusion (huge.symm.trans point)
  exact ⟨j, j', run, point, next⟩

end WeaveC.Alloc
