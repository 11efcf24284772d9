import WeaveC.Calls.Lookup

/-!
# The arguments of an alias

A call through an alias carries the row's arguments where the alias's list has
them, and behind the list of a variadic row those that go on from its last entry.
The two maps undo each other when the list names no argument twice and no entry
is past the one that it goes on from.
-/

namespace WeaveC.Calls

open WeaveC.Library

namespace LibraryMatch

/-- The two argument maps of a match undo each other. -/
structure Invertible (m : LibraryMatch) : Prop where
  row : ∀ call row : Nat, m.rowArgument call = row → m.callArgument row = call
  call : ∀ row call : Nat, m.callArgument row = call → m.rowArgument call = row

/-- No two arguments of a call are taken for the same one of the row. -/
theorem Invertible.injective {m : LibraryMatch} (invertible : m.Invertible) {call call' row : Nat}
    (first : m.rowArgument call = row) (second : m.rowArgument call' = row) : call = call' := by
  have back := invertible.row call row first
  rw [invertible.row call' row second] at back
  exact (Int.natCast_inj.mp back).symm

theorem invertible_plain {m : LibraryMatch} (plain : m.chk = none) : m.Invertible := by
  constructor
  · intro call row same
    unfold rowArgument at same
    unfold callArgument
    rw [plain] at same ⊢
    exact same.symm
  · intro row call same
    unfold callArgument at same
    unfold rowArgument
    rw [plain] at same ⊢
    exact same.symm

end LibraryMatch

/-- An alias's list names no argument of the row twice, and where arguments go on
behind it, no entry is past the last. -/
structure LibraryChk.Orderly (chk : LibraryChk) (variadic : Bool) : Prop where
  distinct : chk.argumentOf.Pairwise fun row row' => 0 ≤ row → row ≠ row'
  last : variadic = true → ∀ last ∈ chk.argumentOf.getLast?, 0 ≤ last →
    ∀ row ∈ chk.argumentOf, row ≤ last

theorem LibraryChk.Orderly.index_unique {a : LibraryChk} {variadic : Bool} {i j row : Nat}
    (orderly : a.Orderly variadic) (first : a.argumentOf[i]? = some (row : Int))
    (second : a.argumentOf[j]? = some (row : Int)) : i = j := by
  obtain ⟨within, here⟩ := List.getElem?_eq_some_iff.mp first
  obtain ⟨within', here'⟩ := List.getElem?_eq_some_iff.mp second
  have apart := List.pairwise_iff_getElem.mp orderly.distinct
  rcases Nat.lt_trichotomy i j with before | same | behind
  · exact absurd (here.trans here'.symm) (apart i j within within' before (by omega))
  · exact same
  · exact absurd (here'.trans here.symm) (apart j i within' within behind (by omega))

namespace LibraryMatch

variable {e : LibraryEntry} {a : LibraryChk}

theorem continued_eq_some_iff {last : Int} :
    (⟨e, some a⟩ : LibraryMatch).continued a = some last ↔
      a.argumentOf.getLast? = some last ∧ e.variadic = true ∧ 0 ≤ last := by
  unfold continued
  cases a.argumentOf.getLast? with
  | none => simp
  | some last' =>
      dsimp only
      rw [Option.ite_none_right_eq_some, Option.some.injEq]
      constructor
      · rintro ⟨both, rfl⟩
        exact ⟨rfl, both⟩
      · rintro ⟨rfl, both⟩
        exact ⟨both, rfl⟩

theorem rowArgument_eq_iff {call row : Nat} :
    (⟨e, some a⟩ : LibraryMatch).rowArgument call = row ↔
      a.argumentOf[call]? = some (row : Int) ∨
        a.argumentOf.length ≤ call ∧ ∃ last : Int, a.argumentOf.getLast? = some last ∧
          e.variadic = true ∧ 0 ≤ last ∧ (row : Int) = last + (call - a.argumentOf.length) + 1 := by
  unfold rowArgument
  dsimp only
  cases entry : a.argumentOf[call]? with
  | some r =>
      have within := (List.getElem?_eq_some_iff.mp entry).1
      rw [or_iff_left fun behind => absurd behind.1 (Nat.not_le.mpr within), Option.some.injEq]
  | none =>
      have behind := List.getElem?_eq_none_iff.mp entry
      rw [or_iff_right (Option.some_ne_none _).symm, and_iff_right behind]
      cases next : (⟨e, some a⟩ : LibraryMatch).continued a with
      | some last =>
          have here := continued_eq_some_iff.mp next
          constructor
          · intro same
            exact ⟨last, here.1, here.2.1, here.2.2, same.symm⟩
          · rintro ⟨last', there, -, -, same⟩
            rw [here.1] at there
            cases there
            exact same.symm
      | none =>
          dsimp only
          refine iff_of_false (by omega) ?_
          rintro ⟨last, there⟩
          rw [continued_eq_some_iff.mpr ⟨there.1, there.2.1, there.2.2.1⟩] at next
          cases next

theorem callArgument_eq_iff {call row : Nat} :
    (⟨e, some a⟩ : LibraryMatch).callArgument row = call ↔
      a.argumentOf.findIdx? (· = (row : Int)) = some call ∨
        (row : Int) ∉ a.argumentOf ∧ ∃ last : Int, a.argumentOf.getLast? = some last ∧
          e.variadic = true ∧ 0 ≤ last ∧ last < row ∧
          (call : Int) = a.argumentOf.length - 1 + (row - last) := by
  unfold callArgument
  dsimp only
  cases found : a.argumentOf.findIdx? (· = (row : Int)) with
  | some i =>
      obtain ⟨within, here, -⟩ := List.findIdx?_eq_some_iff_getElem.mp found
      have mem : (row : Int) ∈ a.argumentOf := by
        rw [← of_decide_eq_true here]
        exact List.getElem_mem within
      rw [or_iff_left fun other => other.1 mem, Option.some.injEq]
      exact Int.natCast_inj
  | none =>
      have absent : (row : Int) ∉ a.argumentOf := fun mem =>
        absurd (decide_eq_true rfl) (List.findIdx?_eq_none_iff.mp found _ mem ▸ Bool.false_ne_true)
      rw [or_iff_right (Option.some_ne_none _).symm, and_iff_right absent]
      cases next : (⟨e, some a⟩ : LibraryMatch).continued a with
      | some last =>
          have here := continued_eq_some_iff.mp next
          dsimp only
          split
          · rename_i small
            refine iff_of_false (by omega) ?_
            rintro ⟨last', there, -, -, large, -⟩
            rw [here.1] at there
            cases there
            omega
          · rename_i large
            constructor
            · intro same
              exact ⟨last, here.1, here.2.1, here.2.2, by omega, same.symm⟩
            · rintro ⟨last', there, -, -, -, same⟩
              rw [here.1] at there
              cases there
              exact same.symm
      | none =>
          dsimp only
          refine iff_of_false (by omega) ?_
          rintro ⟨last, there⟩
          rw [continued_eq_some_iff.mpr ⟨there.1, there.2.1, there.2.2.1⟩] at next
          cases next

/-- A row's argument that is found in a call is the one that the call's is taken
for. -/
theorem rowArgument_callArgument {call row : Nat}
    (found : (⟨e, some a⟩ : LibraryMatch).callArgument row = call) :
    (⟨e, some a⟩ : LibraryMatch).rowArgument call = row := by
  refine rowArgument_eq_iff.mpr ?_
  rcases callArgument_eq_iff.mp found with entry | ⟨-, last, isLast, variadic, named, large, same⟩
  · obtain ⟨within, here, -⟩ := List.findIdx?_eq_some_iff_getElem.mp entry
    refine .inl (List.getElem?_eq_some_iff.mpr ⟨within, of_decide_eq_true here⟩)
  · exact .inr ⟨by omega, last, isLast, variadic, named, by omega⟩

theorem callArgument_rowArgument (orderly : a.Orderly e.variadic) {call row : Nat}
    (taken : (⟨e, some a⟩ : LibraryMatch).rowArgument call = row) :
    (⟨e, some a⟩ : LibraryMatch).callArgument row = call := by
  refine callArgument_eq_iff.mpr ?_
  rcases rowArgument_eq_iff.mp taken with entry | ⟨behind, last, isLast, variadic, named, same⟩
  · obtain ⟨within, here⟩ := List.getElem?_eq_some_iff.mp entry
    refine .inl (List.findIdx?_eq_some_iff_getElem.mpr ⟨within, decide_eq_true here, ?_⟩)
    intro j before again
    have earlier := List.getElem?_eq_some_iff.mpr
      ⟨Nat.lt_trans before within, of_decide_eq_true again⟩
    exact absurd (orderly.index_unique earlier entry) (Nat.ne_of_lt before)
  · refine .inr ⟨fun mem => ?_, last, isLast, variadic, named, by omega, by omega⟩
    have small := orderly.last variadic last isLast named row mem
    omega

theorem invertible_iff :
    (⟨e, some a⟩ : LibraryMatch).Invertible ↔ a.Orderly e.variadic := by
  constructor
  · intro invertible
    constructor
    · refine List.pairwise_iff_getElem.mpr fun i j within within' before named same => ?_
      obtain ⟨row, eq⟩ := Int.eq_ofNat_of_zero_le named
      have entry : (⟨e, some a⟩ : LibraryMatch).rowArgument i = row :=
        rowArgument_eq_iff.mpr (.inl (List.getElem?_eq_some_iff.mpr ⟨within, eq⟩))
      have entry' : (⟨e, some a⟩ : LibraryMatch).rowArgument j = row :=
        rowArgument_eq_iff.mpr (.inl (List.getElem?_eq_some_iff.mpr ⟨within', same ▸ eq⟩))
      exact Nat.ne_of_lt before (invertible.injective entry entry')
    · intro variadic last isLast named row mem
      refine Int.not_lt.mp fun large => ?_
      -- the entry is also where an argument behind the list goes
      obtain ⟨i, within, here⟩ := List.mem_iff_getElem.mp mem
      obtain ⟨row, rfl⟩ := Int.eq_ofNat_of_zero_le (by omega : 0 ≤ row)
      obtain ⟨last, rfl⟩ := Int.eq_ofNat_of_zero_le named
      have entry : (⟨e, some a⟩ : LibraryMatch).rowArgument i = row :=
        rowArgument_eq_iff.mpr (.inl (List.getElem?_eq_some_iff.mpr ⟨within, here⟩))
      have behind : (⟨e, some a⟩ : LibraryMatch).rowArgument
          (a.argumentOf.length + (row - last - 1)) = row :=
        rowArgument_eq_iff.mpr (.inr ⟨by omega, last, isLast, variadic, named, by omega⟩)
      have same := invertible.injective entry behind
      omega
  · intro orderly
    exact ⟨fun call row => callArgument_rowArgument orderly,
      fun row call => rowArgument_callArgument⟩

/-- A lookup of an alias of an accepted table finds it with its row, and the two
argument maps undo each other exactly when its list is orderly. -/
theorem maps_invertible_iff {text : List Char} {spec : LibrarySpec}
    (accepted : LibrarySpec.parse text = .ok spec) (row : e ∈ spec.rows) (mem : a ∈ e.chk)
    (arguments : Option Nat) :
    spec.lookup a.name arguments = some ⟨e, some a⟩ ∧
      ((⟨e, some a⟩ : LibraryMatch).Invertible ↔ a.Orderly e.variadic) := by
  have indexed : spec.Indexed := (LibrarySpec.safe_parse text).of_ok accepted
  exact ⟨indexed.lookup_eq_some_iff.mpr (.inl (.chk row mem rfl)), invertible_iff⟩

/-! ## Two tables -/

def pointerParam : LibraryParam := { type := .pointer, access := .read }

/-- The alias drops a flag and takes the other arguments in another order. -/
def orderlyText : List Char := "p(r, ...) -> int chk(__p_chk:1,_,0,size,2);".toList

def orderlyAlias : LibraryChk where
  name := "__p_chk".toList
  argumentOf := [1, -1, 0, -1, 2]
  sizeArgument := 3

def orderlyRow : LibraryEntry where
  name := ['p']
  chk := [orderlyAlias]
  params := [pointerParam]
  variadic := true
  result := .int

theorem maps_invertible_orderly : ∃ spec, LibrarySpec.parse orderlyText = .ok spec ∧
    spec.lookup "__p_chk".toList none = some ⟨orderlyRow, some orderlyAlias⟩ ∧
    (⟨orderlyRow, some orderlyAlias⟩ : LibraryMatch).Invertible := by
  obtain ⟨spec, accepted, rows⟩ := LibrarySpec.parse_of_rows orderlyText [orderlyRow] (by decide +kernel)
  have row : orderlyRow ∈ spec.rows := by
    rw [rows]
    exact List.mem_singleton_self _
  have both := maps_invertible_iff accepted row (List.mem_singleton_self orderlyAlias) none
  exact ⟨spec, accepted, both.1, both.2.mpr ⟨by decide, by decide⟩⟩

/-- `g` takes two arguments for the first of `f`, and `k` its first and its third for
the second of `h`. -/
def repeatedText : List Char :=
  "f(r, int) -> int chk(g:0,0);\nh(r, ...) -> int chk(k:1,0);".toList

def repeatedAlias : LibraryChk where
  name := ['g']
  argumentOf := [0, 0]

def repeatedRow : LibraryEntry where
  name := ['f']
  chk := [repeatedAlias]
  params := [pointerParam, {}]
  result := .int

def overtakenAlias : LibraryChk where
  name := ['k']
  argumentOf := [1, 0]

def overtakenRow : LibraryEntry where
  name := ['h']
  chk := [overtakenAlias]
  params := [pointerParam]
  variadic := true
  result := .int

theorem maps_not_invertible : ∃ spec, LibrarySpec.parse repeatedText = .ok spec ∧
    spec.rows = [repeatedRow, overtakenRow] ∧
    ¬ (⟨repeatedRow, some repeatedAlias⟩ : LibraryMatch).Invertible ∧
    ¬ (⟨overtakenRow, some overtakenAlias⟩ : LibraryMatch).Invertible := by
  obtain ⟨spec, accepted, rows⟩ := LibrarySpec.parse_of_rows repeatedText [repeatedRow, overtakenRow]
    (by decide +kernel)
  refine ⟨spec, accepted, rows, fun invertible => ?_, fun invertible => ?_⟩
  · have first : (⟨repeatedRow, some repeatedAlias⟩ : LibraryMatch).rowArgument 0 = (0 : Nat) := rfl
    have second : (⟨repeatedRow, some repeatedAlias⟩ : LibraryMatch).rowArgument 1 = (0 : Nat) := rfl
    cases invertible.injective first second
  · have first : (⟨overtakenRow, some overtakenAlias⟩ : LibraryMatch).rowArgument 0 = (1 : Nat) := rfl
    have third : (⟨overtakenRow, some overtakenAlias⟩ : LibraryMatch).rowArgument 2 = (1 : Nat) := rfl
    cases invertible.injective first third

end LibraryMatch

end WeaveC.Calls
