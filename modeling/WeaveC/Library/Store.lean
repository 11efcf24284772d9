import WeaveC.Library.Memory
import Mathlib.Logic.Function.Basic

/-!
# A store of blocks

Clients ask a store for blocks of values, resize them and give them back; each
waits for the answer to its request.  A new block is zero, and a resized one
keeps its values as far as they fit, with zeros after them.  What the store
answers must lie apart from every block that a client has.
-/

namespace WeaveC.Library

namespace Store

/-- What a client asks for; `nothing` is a request that is about no block. -/
inductive Request where
  | allocate (size : Nat)
  | release (p : Nat)
  | resize (p size : Nat)
  | nothing
  deriving DecidableEq, Repr

/-- A request that is not answered yet, with the values of the block it gave
back. -/
inductive Task (α : Type*) where
  | allocates (size : Nat)
  | releases (p : Nat) (values : List α)
  | resizes (p : Nat) (values : List α) (size : Nat)
  | nothing

/-- What happens between the clients and the store. -/
inductive Action (T α : Type*) where
  | request (t : T) (r : Request)
  | answer (t : T) (p : Nat)
  | write (p i : Nat) (v : α)

end Store

/-- The blocks that the clients have, by their starts, and the requests under
way. -/
structure Store (T α : Type*) where
  blocks : Nat → Option (List α)
  task : T → Option (Store.Task α)

namespace Store

variable {T α : Type*}

/-- No blocks and no requests. -/
def empty : Store T α := ⟨fun _ => none, fun _ => none⟩

/-- The block that an answer gives the client: 0 means that there is none, and
leaves a block that was to be resized as it is. -/
def Task.block [Zero α] : Task α → Nat → Option (Nat × List α)
  | .allocates size, q => if q = 0 then none else some (q, List.replicate size 0)
  | .resizes p values size, q => if q = 0 then some (p, values) else some (q, resized values size)
  | _, _ => none

section Act

variable [DecidableEq T] (s : Store T α)

/-- The block at `p` goes back to the store for `task`. -/
def take (t : T) (p : Nat) (task : List α → Task α) : Store T α :=
  match s.blocks p with
  | none => { s with task := Function.update s.task t (some .nothing) }
  | some values =>
      { blocks := Function.update s.blocks p none
        task := Function.update s.task t (some (task values)) }

def ask (t : T) : Request → Store T α
  | .allocate size => { s with task := Function.update s.task t (some (.allocates size)) }
  | .release p => s.take t p (.releases p)
  | .resize p size => s.take t p fun values => .resizes p values size
  | .nothing => { s with task := Function.update s.task t (some .nothing) }

/-- A client has a block, if any, and its request is done. -/
def settle (t : T) (block : Option (Nat × List α)) : Store T α where
  blocks := match block with
    | none => s.blocks
    | some (p, values) => Function.update s.blocks p (some values)
  task := Function.update s.task t none

def act [Zero α] : Action T α → Store T α
  | .request t r => s.ask t r
  | .answer t q => s.settle t ((s.task t).bind fun task => task.block q)
  | .write p i v =>
      { s with blocks := Function.update s.blocks p ((s.blocks p).map fun values => values.set i v) }

def acts [Zero α] : Store T α → List (Action T α) → Store T α
  | s, [] => s
  | s, a :: as => acts (s.act a) as

end Act

section Rules

variable (s : Store T α)

/-- A client gives back and writes only what it has. -/
def Lawful : Action T α → Prop
  | .request _ (.release p) => p = 0 ∨ (s.blocks p).isSome
  | .request _ (.resize p _) => (s.blocks p).isSome
  | .request _ _ | .answer _ _ => True
  | .write p i _ => ∃ values ∈ s.blocks p, i < values.length

instance : DecidablePred s.Lawful := fun a =>
  match a with
  | .request _ (.release p) => inferInstanceAs (Decidable (p = 0 ∨ _))
  | .request _ (.resize p _) => inferInstanceAs (Decidable ((s.blocks p).isSome = true))
  | .request _ (.allocate _) | .request _ .nothing | .answer _ _ => .isTrue trivial
  | .write p i _ => inferInstanceAs (Decidable (∃ values ∈ s.blocks p, i < values.length))

/-- No block has the start of a block of `n` values at `p`, or one of its
places. -/
def Free (p n : Nat) : Prop :=
  ∀ q values, s.blocks q = some values → q ≠ p ∧ (q + values.length ≤ p ∨ p + n ≤ q)

/-- What the store may do: a client asks for one thing at a time, and gets a block
that lies apart from all others. -/
def Admits [Zero α] : Action T α → Prop
  | .request t _ => s.task t = none
  | .answer t q => ∃ task ∈ s.task t, ∀ block ∈ task.block q, s.Free block.1 block.2.length
  | .write p _ _ => (s.blocks p).isSome

/-- Each of the actions, in turn. -/
def AdmitsAll [DecidableEq T] [Zero α] : Store T α → List (Action T α) → Prop
  | _, [] => True
  | s, a :: as => s.Admits a ∧ (s.act a).AdmitsAll as

/-- The clients' blocks lie apart. -/
def Apart : Prop :=
  ∀ p values, s.blocks p = some values → ∀ q values', s.blocks q = some values' → p ≠ q →
    p + values.length ≤ q ∨ q + values'.length ≤ p

end Rules

/-! ## Blocks lie apart -/

theorem apart_empty : (empty : Store T α).Apart := by
  intro p values found
  cases found

variable {s s' : Store T α}

/-- Blocks that are some of those before, no longer than they were. -/
theorem Apart.fewer (apart : s.Apart) (fewer : ∀ p values, s'.blocks p = some values →
    ∃ values', s.blocks p = some values' ∧ values.length = values'.length) : s'.Apart := by
  intro p values found q values' found' other
  obtain ⟨was, before, length⟩ := fewer p values found
  obtain ⟨was', before', length'⟩ := fewer q values' found'
  rw [length, length']
  exact apart p was before q was' before' other

/-- One more block, apart from the others. -/
theorem Apart.add (apart : s.Apart) {p : Nat} {values : List α} (free : s.Free p values.length)
    (blocks : s'.blocks = Function.update s.blocks p (some values)) : s'.Apart := by
  intro q values' found r values'' found' other
  rw [blocks] at found found'
  by_cases first : q = p
  · subst first
    rw [Function.update_self] at found
    obtain rfl := Option.some.inj found
    rw [Function.update_of_ne (Ne.symm other)] at found'
    exact (free r values'' found').2.symm
  · rw [Function.update_of_ne first] at found
    by_cases second : r = p
    · subst second
      rw [Function.update_self] at found'
      obtain rfl := Option.some.inj found'
      exact (free q values' found).2
    · rw [Function.update_of_ne second] at found'
      exact apart q values' found r values'' found' other

/-- What the store may do keeps its blocks apart. -/
theorem Apart.act [DecidableEq T] [Zero α] (apart : s.Apart) {a : Action T α}
    (admits : s.Admits a) : (s.act a).Apart := by
  have taken (t : T) (p : Nat) (task : List α → Task α) : (s.take t p task).Apart := by
    refine apart.fewer fun q values found => ?_
    unfold take at found
    split at found
    · exact ⟨values, found, rfl⟩
    · by_cases same : q = p
      · subst same
        dsimp only at found
        rw [Function.update_self] at found
        cases found
      · dsimp only at found
        rw [Function.update_of_ne same] at found
        exact ⟨values, found, rfl⟩
  cases a with
  | request t r =>
      cases r with
      | release p => exact taken t p _
      | resize p size => exact taken t p _
      | allocate | nothing => exact apart
  | answer t q =>
      obtain ⟨task, under, free⟩ := admits
      have block : (s.task t).bind (fun task => task.block q) = task.block q := by
        rw [Option.mem_def.mp under]
        rfl
      unfold Store.act
      dsimp only
      rw [block]
      cases given : task.block q with
      | none => exact apart
      | some block => exact apart.add (free block given) rfl
  | write p i v =>
      refine apart.fewer fun q values found => ?_
      change Function.update s.blocks p _ q = some values at found
      by_cases same : q = p
      · subst same
        rw [Function.update_self] at found
        obtain ⟨before, was, rfl⟩ := Option.map_eq_some_iff.mp found
        exact ⟨before, was, List.length_set⟩
      · rw [Function.update_of_ne same] at found
        exact ⟨values, found, rfl⟩

theorem Apart.acts [DecidableEq T] [Zero α] {actions : List (Action T α)} {s : Store T α}
    (apart : s.Apart) (admits : s.AdmitsAll actions) : (s.acts actions).Apart := by
  induction actions generalizing s with
  | nil => exact apart
  | cons a as inductionHypothesis => exact inductionHypothesis (apart.act admits.1) admits.2

end Store

end WeaveC.Library
