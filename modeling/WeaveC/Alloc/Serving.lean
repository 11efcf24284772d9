import WeaveC.Alloc.Blocks
import WeaveC.Library.Store

/-!
# The allocator as a store of blocks

The allocator's machine beside the store that it is for.  A call is a request,
its return is the answer, and each thread's call is at some stage of serving
its request: with the blocks that it was given or has made in its hands.
-/

namespace WeaveC.Alloc

open WeaveC.Runtime WeaveC.Library

variable {T : Type} {A : Arena} {place : Slot → Place T} {s s' : State T} {e : Event T}
  {w : Filled T} {x : Slot} {p q n m : Nat} {t u : T} {values : List UInt8}

/-! ## Calls as requests -/

def Call.request : Call → Store.Request
  | .alloc size _ => .allocate size
  | .free p => .release p
  | .realloc p size => if p = 0 then .allocate size else .resize p size
  | .exit => .nothing

/-- The allocator and the store it serves as. -/
structure Joint (T : Type) where
  filled : Filled T
  store : Store T UInt8

namespace Joint

variable (A) (j : Joint T)

def initial (byte memory : Nat → UInt8) : Joint T := ⟨.initial A byte memory, .empty⟩

/-- What a step that leads to `w'` is of the store's: the start of a call, its
return, or both. -/
def actions (d : Deed T) (w' : Filled T) : List (Store.Action T UInt8) :=
  match d with
  | .step e =>
      (e.call.map fun call => .request e.thread call.request).toList ++
        if (w'.state.thread e.thread).point = .idle then
          [.answer e.thread (w'.locals e.thread).block]
        else []
  | .write p i value => [.write p i value]
  | .elsewhere _ _ => []

/-- The program gives back and writes only the blocks it has, and memory that is
not the allocator's. -/
def Lawful (j : Joint T) : Deed T → Prop
  | .step e => ∀ call ∈ e.call, j.store.Lawful (.request e.thread call.request)
  | .write p i value => j.store.Lawful (.write p i value)
  | .elsewhere address _ => j.filled.state.Elsewhere A address

instance (d : Deed T) : Decidable (j.Lawful A d) :=
  match d with
  | .step e => inferInstanceAs (Decidable (∀ call ∈ e.call, _))
  | .write p i value => inferInstanceAs (Decidable (j.store.Lawful (.write p i value)))
  | .elsewhere address _ => inferInstanceAs (Decidable (j.filled.state.Elsewhere A address))

variable [DecidableEq T]

def step (j : Joint T) (d : Deed T) : Option (Joint T) :=
  (j.filled.step A d).map fun w' => ⟨w', j.store.acts (actions d w')⟩

end Joint

/-! ## Serving a request -/

namespace Filled

variable (A) (w : Filled T)

/-- The program's block at `p` holds `values`. -/
structure Keeps (p : Nat) (values : List UInt8) : Prop where
  start : p ≠ 0
  block : w.state.BlockAt A p values.length
  memory : valuesAt w.memory p values.length = values

/-- The release of the block of `n` bytes at `p` has not taken it yet. -/
inductive Releasing (t : T) (p n : Nat) : Prop where
  | starts (point : (w.state.thread t).point = .release p)
  | claims {x : Slot} (point : (w.state.thread t).point = .claim x ⟨n, .live⟩)
      (block : w.state.SlotBlock A x p n)

/-- How far a thread's call is with its request, and the blocks in its hands. -/
inductive Doing (t : T) : Option (Store.Task UInt8) → List Nat → Prop where
  | idle (point : (w.state.thread t).point = .idle) : Doing t none []
  | ended {task : Store.Task UInt8} (rest : (w.state.thread t).point.aim = .rest)
      (block : task.block (w.locals t).block = none) : Doing t (some task) []
  | made {task : Store.Task UInt8} {q : Nat} {values : List UInt8}
      (rest : (w.state.thread t).point.aim = .rest)
      (block : task.block (w.locals t).block = some (q, values)) (keeps : w.Keeps A q values) :
      Doing t (some task) [q]
  | allocates {size : Nat} (seeks : (w.state.thread t).point.aim = .seeks size .request)
      (locals : w.locals t = ⟨0, 0, 0⟩) : Doing t (some (.allocates size)) []
  | releases {p : Nat} {values : List UInt8} (on : w.Releasing A t p values.length)
      (keeps : w.Keeps A p values) : Doing t (some (.releases p values)) [p]
  | resizes {p size : Nat} {values : List UInt8}
      (point : (w.state.thread t).point = .resize p size) (locals : w.locals t = ⟨p, 0, 0⟩)
      (keeps : w.Keeps A p values) : Doing t (some (.resizes p values size)) [p]
  | moves {p size : Nat} {values : List UInt8}
      (seeks : (w.state.thread t).point.aim = .seeks size (.move p))
      (locals : w.locals t = ⟨p, values.length, 0⟩) (keeps : w.Keeps A p values) :
      Doing t (some (.resizes p values size)) [p]
  | grows {p size : Nat} {values : List UInt8} {x : Slot}
      (point : (w.state.thread t).point = .resizeShadow x size)
      (locals : w.locals t = ⟨p, values.length, 0⟩)
      (block : w.state.SlotBlock A x p values.length) (keeps : w.Keeps A p values) :
      Doing t (some (.resizes p values size)) [p]
  | stores {p size n : Nat} {values : List UInt8} {x : Slot}
      (point : (w.state.thread t).point = .resizeWord x size)
      (block : w.state.SlotBlock A x p n) (start : p ≠ 0)
      (memory : valuesAt w.memory p size = resized values size) :
      Doing t (some (.resizes p values size)) [p]
  | moved {p q size n : Nat} {values values' : List UInt8} (on : w.Releasing A t p n)
      (old : w.state.BlockAt A p n) (other : p ≠ q)
      (block : (Store.Task.resizes p values size).block (w.locals t).block = some (q, values'))
      (keeps : w.Keeps A q values') : Doing t (some (.resizes p values size)) [p, q]

variable {A w} {task : Option (Store.Task UInt8)} {hands : List Nat}

/-- A block in the hands of a call is a live one. -/
theorem Doing.blockAt (doing : w.Doing A t task hands) (mem : p ∈ hands) :
    ∃ n, w.state.BlockAt A p n := by
  cases doing with
  | idle | ended | allocates => cases mem
  | made _ _ keeps | releases _ keeps | resizes _ _ keeps | moves _ _ keeps
  | grows _ _ _ keeps =>
      obtain rfl := List.mem_singleton.mp mem
      exact ⟨_, keeps.block⟩
  | stores _ block =>
      obtain rfl := List.mem_singleton.mp mem
      exact ⟨_, .inl ⟨_, block⟩⟩
  | moved _ old _ _ keeps =>
      rcases List.mem_cons.mp mem with rfl | mem
      · exact ⟨_, old⟩
      · obtain rfl := List.mem_singleton.mp mem
        exact ⟨_, keeps.block⟩

end Filled

theorem State.touched_of_not_turns (on : ¬ (s.thread t).point.Turns) : s.touched A t = none := by
  unfold touched
  split
  · rename_i point
    rw [point] at on
    exact absurd trivial on
  · rename_i point
    rw [point] at on
    exact absurd trivial on
  · rename_i point
    rw [point] at on
    exact absurd trivial on
  · rename_i point
    rw [point] at on
    exact absurd trivial on
  · rfl

theorem Locals.after_of_not_turns (A : Arena) (h : Heap) (a : Answer) (l : Locals) {point : Point}
    (on : ¬ point.Turns) : l.after A h a point = l := by
  cases point with
  | shadowLive | huge | resize | resizeWord => exact absurd trivial on
  | _ => rfl

namespace Filled

variable {task : Option (Store.Task UInt8)} {hands : List Nat}

theorem Releasing.touched (on : w.Releasing A t p n) : w.state.touched A t = some p := by
  unfold State.touched
  cases on with
  | starts point => rw [point]
  | claims point block =>
      rw [point]
      exact congrArg some block.base

/-- A step of a call is on a block that it has in its hands. -/
theorem Doing.touched (doing : w.Doing A t task hands) (on : p ∈ w.state.touched A t) :
    p ∈ hands := by
  have seeks {size : Nat} {purpose : Purpose}
      (aim : (w.state.thread t).point.aim = .seeks size purpose) : False := by
    unfold State.touched at on
    cases point : (w.state.thread t).point with
    | release | claim | resizeShadow | resizeWord =>
        rw [point] at aim
        cases aim
    | _ =>
        rw [point] at on
        cases on
  cases doing with
  | idle point =>
      unfold State.touched at on
      rw [point] at on
      cases on
  | ended rest | made rest =>
      rw [State.touched_of_not_turns (Point.not_turns_of_rest rest)] at on
      cases on
  | allocates aim | moves aim => exact (seeks aim).elim
  | resizes point =>
      unfold State.touched at on
      rw [point] at on
      cases on
  | grows point _ block | stores point block =>
      unfold State.touched at on
      rw [point] at on
      exact List.mem_singleton.mpr ((Option.some.inj on).symm.trans block.base)
  | releases releasing =>
      rw [releasing.touched] at on
      exact List.mem_singleton.mpr (Option.some.inj on).symm
  | moved releasing =>
      rw [releasing.touched] at on
      exact List.mem_cons.mpr (.inl (Option.some.inj on).symm)

/-- The slot that a call's step takes has a block that the call has in its
hands. -/
theorem Doing.takes (doing : w.Doing A t task hands)
    (takes : x ∈ (w.state.thread t).point.takes) :
    ∃ p n, w.state.SlotBlock A x p n ∧ p ∈ hands := by
  have aim := Point.aim_of_takes takes
  have releasing {p n : Nat} (on : w.Releasing A t p n) : w.state.SlotBlock A x p n := by
    cases on with
    | starts point =>
        rw [point] at takes
        cases takes
    | claims point block =>
        rw [point] at takes
        obtain rfl := Option.some.inj takes
        exact block
  cases doing with
  | idle point =>
      rw [point] at takes
      cases takes
  | ended rest | made rest =>
      rw [rest] at aim
      cases aim
  | allocates seeks | moves seeks =>
      rw [seeks] at aim
      cases aim
  | resizes point | stores point =>
      rw [point] at takes
      cases takes
  | grows point _ block =>
      rw [point] at takes
      obtain rfl := Option.some.inj takes
      exact ⟨_, _, block, List.mem_singleton_self _⟩
  | releases on => exact ⟨_, _, releasing on, List.mem_singleton_self _⟩
  | moved on => exact ⟨_, _, releasing on, List.mem_cons_self ..⟩

/-- A block that a call is reallocating in place is in its hands. -/
theorem Doing.resizing (doing : w.Doing A t task hands)
    (resizing : (w.state.thread t).point.resizing = some x) :
    w.state.heap.table.slotBase A x ∈ hands := by
  have aim := Point.aim_of_resizing resizing
  have releasing {p n : Nat} (on : w.Releasing A t p n) : False := by
    cases on with
    | starts point | claims point =>
        rw [point] at resizing
        cases resizing
  cases doing with
  | idle point | resizes point =>
      rw [point] at resizing
      cases resizing
  | ended rest | made rest =>
      rw [rest] at aim
      cases aim
  | allocates seeks | moves seeks =>
      rw [seeks] at aim
      cases aim
  | grows point _ block | stores point block =>
      rw [point] at resizing
      obtain rfl := Option.some.inj resizing
      exact List.mem_singleton.mpr block.base
  | releases on | moved on => exact (releasing on).elim

end Filled

/-! ## Another thread's step -/

section Step

variable [DecidableEq T]

/-- A step's heap and thread; the other threads stay where they are. -/
theorem State.step_parts (taken : s.step A e = some s') :
    s.stepOf A e = some (s'.heap, s'.thread e.thread) ∧
      ∀ u, u ≠ e.thread → s'.thread u = s.thread u := by
  obtain ⟨h, th, found, rfl⟩ := State.step_eq_some taken
  refine ⟨?_, fun u other => Function.update_of_ne other _ _⟩
  dsimp only
  rw [Function.update_self]
  exact found

namespace Filled

variable {task : Option (Store.Task UInt8)} {hands : List Nat}

theorem Keeps.step (pages : 16 ∣ A.page) (ok : Zeroed A w) (taken : w.state.step A e = some s')
    (keeps : w.Keeps A p values) (apart : p ∉ w.state.touched A e.thread) :
    (w.next A e s').Keeps A p values := by
  obtain ⟨block, same⟩ := keeps.block.step pages ok taken apart
  exact ⟨keeps.start, block, (valuesAt_congr same).trans keeps.memory⟩

theorem Releasing.step (pages : 16 ∣ A.page) (ok : Zeroed A w)
    (taken : w.state.step A e = some s') (on : w.Releasing A t p n) (other : t ≠ e.thread)
    (apart : p ∉ w.state.touched A e.thread) : (w.next A e s').Releasing A t p n := by
  have still := (State.step_parts taken).2 t other
  cases on with
  | starts point => exact .starts ((congrArg Thread.point still).trans point)
  | claims point block =>
      exact .claims ((congrArg Thread.point still).trans point)
        (block.step pages ok taken apart)

/-- Another thread's step leaves a call with its blocks as it is. -/
theorem Doing.step (pages : 16 ∣ A.page) (ok : Zeroed A w) (taken : w.state.step A e = some s')
    (doing : w.Doing A t task hands) (other : t ≠ e.thread)
    (apart : ∀ p ∈ hands, p ∉ w.state.touched A e.thread) :
    (w.next A e s').Doing A t task hands := by
  have still : (s'.thread t).point = (w.state.thread t).point :=
    congrArg Thread.point ((State.step_parts taken).2 t other)
  have locals : (w.next A e s').locals t = w.locals t := Function.update_of_ne other _ _
  cases doing with
  | idle point => exact .idle (still.trans point)
  | ended rest block =>
      exact .ended ((congrArg Point.aim still).trans rest) (by rw [locals]; exact block)
  | made rest block keeps =>
      exact .made ((congrArg Point.aim still).trans rest) (by rw [locals]; exact block)
        (keeps.step pages ok taken (apart _ (List.mem_singleton_self _)))
  | allocates seeks locals' =>
      exact .allocates ((congrArg Point.aim still).trans seeks) (locals.trans locals')
  | releases on keeps =>
      have apart := apart _ (List.mem_singleton_self _)
      exact .releases (on.step pages ok taken other apart) (keeps.step pages ok taken apart)
  | resizes point locals' keeps =>
      exact .resizes (still.trans point) (locals.trans locals')
        (keeps.step pages ok taken (apart _ (List.mem_singleton_self _)))
  | moves seeks locals' keeps =>
      exact .moves ((congrArg Point.aim still).trans seeks) (locals.trans locals')
        (keeps.step pages ok taken (apart _ (List.mem_singleton_self _)))
  | grows point locals' block keeps =>
      have apart := apart _ (List.mem_singleton_self _)
      exact .grows (still.trans point) (locals.trans locals') (block.step pages ok taken apart)
        (keeps.step pages ok taken apart)
  | @stores p size n values x point block start memory =>
      have apart := apart _ (List.mem_singleton_self _)
      refine .stores (still.trans point) (block.step pages ok taken apart) start ?_
      refine (valuesAt_congr fun a inside => ?_).trans memory
      -- the bytes that the block gains are its slot's
      obtain ⟨place, partition⟩ := ok.sound.places
      have small := partition.point t
      rw [point] at small
      change size < w.state.heap.table.slotBytes x at small
      exact block.memory pages ok taken apart ⟨inside.1, by have := inside.2; omega⟩
  | moved on old distinct block keeps =>
      have apart' := apart _ (List.mem_cons_self ..)
      exact .moved (on.step pages ok taken other apart') (old.step pages ok taken apart').1 distinct
        (by rw [locals]; exact block)
        (keeps.step pages ok taken (apart _ (List.mem_cons_of_mem _ (List.mem_singleton_self _))))

end Filled

end Step

end WeaveC.Alloc
