import Mathlib.Tactic.Common

/-!
# Programs whose data is left out

A program over actions and procedures; a branch that data would decide is a
free choice.  A discipline follows a value that each action changes, and says
where an action is allowed; a program that checks against it makes only allowed
actions, at whatever point it is looked at.
-/

namespace WeaveC.Library

universe u v w

variable {ι : Type u} {F : Type v} {A : Type w}

inductive Code (ι : Type u) (F : Type v) (A : Type w) where
  | skip
  | act (a : A)
  | seq (c d : Code ι F A)
  | either (c d : Code ι F A)
  | any (c : ι → Code ι F A)
  | loop (c : Code ι F A)
  | call (f : F)

/-- How a program goes on without an action: into a branch, out of a loop
(`left`) or round it (`right`), into a procedure, or past what is done. -/
inductive Turn (ι : Type u) where
  | go
  | left
  | right
  | index (i : ι)

namespace Code

def list : List (Code ι F A) → Code ι F A
  | [] => .skip
  | c :: cs => .seq c (list cs)

/-- The action the program makes next, if that is what it does next. -/
def head : Code ι F A → Option A
  | .act a => some a
  | .seq c _ => c.head
  | _ => none

/-- Every action of the program is of a kind, and it calls no procedure. -/
def Every (P : A → Prop) : Code ι F A → Prop
  | .skip => True
  | .act a => P a
  | .seq c d => c.Every P ∧ d.Every P
  | .either c d => c.Every P ∧ d.Every P
  | .any c => ∀ i, (c i).Every P
  | .loop c => c.Every P
  | .call _ => False

theorem every_list {P : A → Prop} {cs : List (Code ι F A)} (each : ∀ c ∈ cs, c.Every P) :
    (list cs).Every P := by
  induction cs with
  | nil => trivial
  | cons c cs inductionHypothesis =>
    refine ⟨each c List.mem_cons_self, inductionHypothesis ?_⟩
    intro d mem
    exact each d (List.mem_cons_of_mem c mem)

theorem Every.mono {P Q : A → Prop} {c : Code ι F A} (every : c.Every P)
    (weaker : ∀ a, P a → Q a) : c.Every Q := by
  induction c with
  | skip => trivial
  | act a => exact weaker a every
  | seq c d first second => exact ⟨first every.1, second every.2⟩
  | either c d left right => exact ⟨left every.1, right every.2⟩
  | any c each => exact fun i => each i (every i)
  | loop c round => exact round every
  | call f => exact every.elim

theorem Every.head {P : A → Prop} {c : Code ι F A} {a : A} (every : c.Every P)
    (next : c.head = some a) : P a := by
  induction c with
  | act b =>
    obtain rfl := Option.some.inj next
    exact every
  | seq c d first _ => exact first every.1 next
  | skip | either | any | loop | call => cases next

/-- What is left after the next action. -/
def rest : Code ι F A → Code ι F A
  | .seq c d => .seq c.rest d
  | _ => .skip

def resolve (body : F → Code ι F A) : Code ι F A → Turn ι → Option (Code ι F A)
  | .seq .skip d, .go => some d
  | .seq c d, t => (c.resolve body t).map fun c' => .seq c' d
  | .either c _, .left => some c
  | .either _ d, .right => some d
  | .any c, .index i => some (c i)
  | .loop _, .left => some .skip
  | .loop c, .right => some (.seq c (.loop c))
  | .call f, .go => some (body f)
  | _, _ => none

theorem resolve_seq {body : F → Code ι F A} {c d e : Code ι F A} {t : Turn ι}
    (resolved : (Code.seq c d).resolve body t = some e) :
    (c = .skip ∧ e = d) ∨ ∃ c', c.resolve body t = some c' ∧ e = .seq c' d := by
  cases c with
  | skip =>
    cases t with
    | go => exact .inl ⟨rfl, (Option.some.inj resolved).symm⟩
    | left | right | index i => cases resolved
  | act | seq | either | any | loop | call =>
    obtain ⟨c', first, rfl⟩ := Option.map_eq_some_iff.mp resolved
    exact .inr ⟨c', first, rfl⟩

theorem Every.rest {P : A → Prop} {c : Code ι F A} (every : c.Every P) : c.rest.Every P := by
  induction c with
  | seq c d first _ => exact ⟨first every.1, every.2⟩
  | skip | act | either | any | loop | call => trivial

theorem Every.resolve {P : A → Prop} {body : F → Code ι F A} {c c' : Code ι F A} {t : Turn ι}
    (every : c.Every P) (resolved : c.resolve body t = some c') : c'.Every P := by
  induction c generalizing c' with
  | skip => cases t <;> cases resolved
  | act => cases t <;> cases resolved
  | seq c d first _ =>
    obtain ⟨rfl, rfl⟩ | ⟨e, inside, rfl⟩ := resolve_seq resolved
    · exact every.2
    · exact ⟨first every.1 inside, every.2⟩
  | either c d =>
    cases t with
    | left => obtain rfl := Option.some.inj resolved; exact every.1
    | right => obtain rfl := Option.some.inj resolved; exact every.2
    | go | index i => cases resolved
  | any c =>
    cases t with
    | index i => obtain rfl := Option.some.inj resolved; exact every i
    | go | left | right => cases resolved
  | loop c =>
    cases t with
    | left => obtain rfl := Option.some.inj resolved; trivial
    | right => obtain rfl := Option.some.inj resolved; exact ⟨every, every⟩
    | go | index i => cases resolved
  | call f => exact every.elim

end Code

/-- A value each action changes, where each is allowed, the values no run comes
to, and which value allows at least what another does. -/
structure Discipline (H : Type*) (A : Type w) where
  Allowed : H → A → Prop
  after : H → A → H
  Dead : H → Prop
  Covers : H → H → Prop
  refl (h : H) : Covers h h
  trans {h m k : H} : Covers h m → Covers m k → Covers h k
  allowed {h m : H} {a : A} : Covers h m → Allowed m a → Allowed h a
  after_covers {h m : H} (a : A) : Covers h m → Covers (after h a) (after m a)
  dead {h m : H} : Covers h m → Dead m → Dead h

namespace Code

variable {H : Type*} (D : Discipline H A) (spec : F → H → H → Prop)

/-- Every action of the program from `h` is allowed, and it ends at `h'`. -/
inductive Checks : H → Code ι F A → H → Prop where
  | dead {h h' : H} {c : Code ι F A} : D.Dead h → Checks h c h'
  | skip {h : H} : Checks h .skip h
  | act {h : H} {a : A} : D.Allowed h a → Checks h (.act a) (D.after h a)
  | seq {h m h' : H} {c d : Code ι F A} : Checks h c m → Checks m d h' → Checks h (.seq c d) h'
  | either {h h' : H} {c d : Code ι F A} :
      Checks h c h' → Checks h d h' → Checks h (.either c d) h'
  | any {h h' : H} {c : ι → Code ι F A} : (∀ i, Checks h (c i) h') → Checks h (.any c) h'
  | loop {h : H} {c : Code ι F A} : Checks h c h → Checks h (.loop c) h
  | call {h h' : H} {f : F} : spec f h h' → Checks h (.call f) h'
  | weaken {h m m' h' : H} {c : Code ι F A} :
      D.Covers h m → Checks m c m' → D.Covers m' h' → Checks h c h'

variable {D spec} {h h' : H} {c : Code ι F A}

theorem Checks.allowed {a : A} (checks : Checks D spec h c h') (live : ¬ D.Dead h)
    (next : c.head = some a) : D.Allowed h a := by
  induction checks with
  | dead dead => exact absurd dead live
  | act allowed =>
    obtain rfl := Option.some.inj next
    exact allowed
  | seq _ _ first _ => exact first live next
  | weaken covers _ _ inner =>
    exact D.allowed covers (inner (fun dead => live (D.dead covers dead)) next)
  | skip | either | any | loop | call => cases next

theorem Checks.rest {a : A} (checks : Checks D spec h c h') (live : ¬ D.Dead h)
    (next : c.head = some a) : Checks D spec (D.after h a) c.rest h' := by
  induction checks with
  | dead dead => exact absurd dead live
  | act =>
    obtain rfl := Option.some.inj next
    exact .skip
  | seq _ second first _ => exact .seq (first live next) second
  | weaken covers _ covers' inner =>
    refine .weaken (D.after_covers a covers) (inner ?_ next) covers'
    exact fun dead => live (D.dead covers dead)
  | skip | either | any | loop | call => cases next

theorem Checks.of_skip (checks : Checks D spec h (.skip : Code ι F A) h') :
    D.Dead h ∨ D.Covers h h' := by
  generalize eq : (Code.skip : Code ι F A) = c at checks
  induction checks with
  | dead dead => exact .inl dead
  | skip => exact .inr (D.refl _)
  | weaken covers _ covers' inner =>
    rcases inner eq with dead | covered
    · exact .inl (D.dead covers dead)
    · exact .inr (D.trans covers (D.trans covered covers'))
  | act | seq | either | any | loop | call => cases eq

/-- Choices keep the check, where each procedure's body meets what is said of
the procedure. -/
theorem Checks.resolve {body : F → Code ι F A} {c' : Code ι F A} {t : Turn ι}
    (bodies : ∀ f h h', spec f h h' → Checks D spec h (body f) h')
    (checks : Checks D spec h c h') (resolved : c.resolve body t = some c') :
    Checks D spec h c' h' := by
  induction checks generalizing c' with
  | dead dead => exact .dead dead
  | skip => cases t <;> cases resolved
  | act => cases t <;> cases resolved
  | @seq h m h' c d first second inFirst inSecond =>
    obtain ⟨rfl, rfl⟩ | ⟨e, inside, rfl⟩ := resolve_seq resolved
    · rcases first.of_skip with dead | covers
      · exact .dead dead
      · exact .weaken covers second (D.refl _)
    · exact .seq (inFirst inside) second
  | either left right =>
    cases t with
    | left => obtain rfl := Option.some.inj resolved; exact left
    | right => obtain rfl := Option.some.inj resolved; exact right
    | go | index i => cases resolved
  | any each =>
    cases t with
    | index i => obtain rfl := Option.some.inj resolved; exact each i
    | go | left | right => cases resolved
  | loop round =>
    cases t with
    | left => obtain rfl := Option.some.inj resolved; exact .skip
    | right => obtain rfl := Option.some.inj resolved; exact .seq round (.loop round)
    | go | index i => cases resolved
  | call meets =>
    cases t with
    | go => obtain rfl := Option.some.inj resolved; exact bodies _ _ _ meets
    | left | right | index i => cases resolved
  | weaken covers _ covers' inner => exact .weaken covers (inner resolved) covers'

theorem Checks.nil : Checks D spec h (list ([] : List (Code ι F A))) h := .skip

theorem Checks.cons {m : H} {cs : List (Code ι F A)} (first : Checks D spec h c m)
    (others : Checks D spec m (list cs) h') : Checks D spec h (list (c :: cs)) h' :=
  .seq first others

theorem Checks.single (only : Checks D spec h c h') : Checks D spec h (list [c]) h' :=
  cons only nil

/-- An action that leaves the value as it is. -/
theorem Checks.own {a : A} (allowed : D.Allowed h a) (same : D.after h a = h) :
    Checks D spec h (.act a : Code ι F A) h := by
  have kept := @Checks.act ι F A H D spec h a allowed
  rwa [same] at kept

end Code

end WeaveC.Library
