import WeaveC.Calls.TableSpec
import Mathlib.Data.List.Nodup

/-!
# What a name of the table stands for

A name is a row's, an alias's or nobody's.  A row's name may have several rows,
of which a call takes the first that its arguments fit.
-/

namespace WeaveC.Calls

open WeaveC.Library LibrarySpecParser

/-- The first of a list that is a `P`. -/
def FirstOf {α : Type} (P : α → Prop) (l : List α) (a : α) : Prop :=
  ∃ before after, l = before ++ a :: after ∧ P a ∧ ∀ b ∈ before, ¬ P b

theorem find?_eq_some_iff_firstOf {α : Type} {P : α → Prop} {p : α → Bool} {l : List α} {a : α}
    (same : ∀ b, p b = true ↔ P b) : l.find? p = some a ↔ FirstOf P l a := by
  rw [List.find?_eq_some_iff_append, same]
  constructor
  · rintro ⟨holds, before, after, eq, none⟩
    refine ⟨before, after, eq, holds, fun b mem holds' => ?_⟩
    have no := none b mem
    rw [(same b).mpr holds'] at no
    cases no
  · rintro ⟨before, after, eq, holds, none⟩
    refine ⟨holds, before, after, eq, fun b mem => ?_⟩
    rw [Bool.not_eq_true', Bool.eq_false_iff]
    exact fun passed => none b mem ((same b).mp passed)

theorem FirstOf.mem {α : Type} {P : α → Prop} {l : List α} {a : α} (first : FirstOf P l a) :
    a ∈ l ∧ P a := by
  obtain ⟨before, after, rfl, holds, -⟩ := first
  exact ⟨List.mem_append_right before List.mem_cons_self, holds⟩

/-- The row of a name that a call takes: the first that its arguments fit, or else
the first. -/
def Chosen (rows : List LibraryEntry) (arguments : Option Nat) (name : List Char)
    (e : LibraryEntry) : Prop :=
  (∃ n ∈ arguments, FirstOf (fun row => row.name = name ∧ fits row n = true) rows e) ∨
    (∀ n ∈ arguments, ∀ row ∈ rows, row.name = name → fits row n = false) ∧
      FirstOf (fun row => row.name = name) rows e

/-- What a name stands for in a table of these rows. -/
inductive StandsFor (rows : List LibraryEntry) (arguments : Option Nat) (name : List Char) :
    LibraryMatch → Prop
  | row {e : LibraryEntry} (chosen : Chosen rows arguments name e) :
      StandsFor rows arguments name ⟨e, none⟩
  | chk {e : LibraryEntry} {a : LibraryChk} (row : e ∈ rows) (mem : a ∈ e.chk)
      (named : a.name = name) : StandsFor rows arguments name ⟨e, some a⟩

/-- The name of a row or of an alias. -/
def Known (rows : List LibraryEntry) (name : List Char) : Prop :=
  (∃ e ∈ rows, e.name = name) ∨ ∃ e ∈ rows, ∃ a ∈ e.chk, a.name = name

theorem Chosen.mem {rows : List LibraryEntry} {arguments : Option Nat} {name : List Char}
    {e : LibraryEntry} (chosen : Chosen rows arguments name e) : e ∈ rows ∧ e.name = name := by
  rcases chosen with ⟨n, -, first⟩ | ⟨-, first⟩
  · exact ⟨first.mem.1, first.mem.2.1⟩
  · exact first.mem

theorem exists_firstOf {α : Type} {P : α → Prop} [DecidablePred P] {l : List α} {a : α}
    (mem : a ∈ l) (holds : P a) : ∃ b, FirstOf P l b := by
  cases found : l.find? (P ·) with
  | some b => exact ⟨b, (find?_eq_some_iff_firstOf fun _ => decide_eq_true_iff).mp found⟩
  | none => exact absurd (decide_eq_true holds) (List.find?_eq_none.mp found a mem)

theorem exists_chosen {rows : List LibraryEntry} {name : List Char} {e : LibraryEntry}
    (arguments : Option Nat) (row : e ∈ rows) (named : e.name = name) :
    ∃ e, Chosen rows arguments name e := by
  by_cases fitting : ∃ n ∈ arguments, ∃ row ∈ rows, row.name = name ∧ fits row n = true
  · obtain ⟨n, given, row, mem, fit⟩ := fitting
    obtain ⟨first, isFirst⟩ := exists_firstOf
      (P := fun row => row.name = name ∧ fits row n = true) mem fit
    exact ⟨first, .inl ⟨n, given, isFirst⟩⟩
  · obtain ⟨first, isFirst⟩ := exists_firstOf (P := fun row => row.name = name) row named
    refine ⟨first, .inr ⟨fun n given row mem named => ?_, isFirst⟩⟩
    exact Bool.eq_false_iff.mpr fun fit => fitting ⟨n, given, row, mem, named, fit⟩

/-! ## The aliases of the rows -/

theorem mem_places {rows : List LibraryEntry} {place : Place} : place ∈ places rows ↔
    ∃ e a, rows[place.row]? = some e ∧ e.chk[place.chk]? = some a ∧
      place.rowName = e.name ∧ place.name = a.name := by
  unfold places
  rw [List.mem_flatMap]
  constructor
  · rintro ⟨⟨e, row⟩, found, mem⟩
    obtain ⟨⟨a, i⟩, found', rfl⟩ := List.mem_map.mp mem
    exact ⟨e, a, List.mem_zipIdx_iff_getElem?.mp found, List.mem_zipIdx_iff_getElem?.mp found',
      rfl, rfl⟩
  · rintro ⟨e, a, found, found', rowName, name⟩
    refine ⟨(e, place.row), List.mem_zipIdx_iff_getElem?.mpr found, List.mem_map.mpr ?_⟩
    refine ⟨(a, place.chk), List.mem_zipIdx_iff_getElem?.mpr found', ?_⟩
    cases place
    cases rowName
    cases name
    rfl

/-- The names of the aliases, in file order. -/
def aliasNames (rows : List LibraryEntry) : List (List Char) :=
  rows.flatMap fun e => e.chk.map LibraryChk.name

theorem places_names (rows : List LibraryEntry) :
    (places rows).map Place.name = aliasNames rows := by
  unfold places aliasNames
  rw [List.map_flatMap]
  have names (found : LibraryEntry × Nat) : (found.1.chk.zipIdx.map fun chk =>
      (⟨found.1.name, chk.1.name, found.2, chk.2⟩ : Place)).map Place.name =
      found.1.chk.map LibraryChk.name := by
    rw [List.map_map]
    calc found.1.chk.zipIdx.map (fun chk => chk.1.name)
        = (found.1.chk.zipIdx.map Prod.fst).map LibraryChk.name := by
          rw [List.map_map]
          rfl
      _ = found.1.chk.map LibraryChk.name := by rw [List.zipIdx_map_fst]
  calc rows.zipIdx.flatMap (fun found => (found.1.chk.zipIdx.map fun chk =>
        (⟨found.1.name, chk.1.name, found.2, chk.2⟩ : Place)).map Place.name)
      = rows.zipIdx.flatMap fun found => found.1.chk.map LibraryChk.name := by
        simp only [names]
    _ = (rows.zipIdx.map Prod.fst).flatMap fun e => e.chk.map LibraryChk.name := by
        rw [List.flatMap_map]
    _ = rows.flatMap fun e => e.chk.map LibraryChk.name := by rw [List.zipIdx_map_fst]

namespace LibrarySpec

variable {spec : LibrarySpec} {name : List Char} {arguments : Option Nat}

/-! ## One round of a lookup -/

theorem Indexed.equalRange_eq (indexed : spec.Indexed) :
    spec.equalRange name = spec.rows.filter (·.name = name) := by
  have found : ∀ found ∈ spec.rows.zipIdx.filter (·.1.name = name),
      spec.rows[found.2]? = some found.1 :=
    fun found mem => List.mem_zipIdx_iff_getElem?.mp (List.mem_filter.mp mem).1
  unfold equalRange
  rw [indexed.names, List.filter_map, List.filterMap_map]
  calc (spec.rows.zipIdx.filter (·.1.name = name)).filterMap (fun found => spec.rows[found.2]?)
      = (spec.rows.zipIdx.filter (·.1.name = name)).filterMap fun found => some found.1 :=
        List.filterMap_congr found
    _ = (spec.rows.zipIdx.filter (·.1.name = name)).map Prod.fst := by
        rw [← List.filterMap_eq_map]
        rfl
    _ = (spec.rows.zipIdx.map Prod.fst).filter (·.name = name) := by
        rw [List.filter_map]
        rfl
    _ = spec.rows.filter (·.name = name) := by rw [List.zipIdx_map_fst]

/-- Of the rows of a name, `resolve` takes the one that is chosen. -/
theorem Indexed.chosen_iff (indexed : spec.Indexed) (e : LibraryEntry) :
    ((arguments.bind fun n => (spec.equalRange name).find? (fits · n)).or
      (spec.equalRange name).head?) = some e ↔ Chosen spec.rows arguments name e := by
  have first : (spec.equalRange name).head? = some e ↔
      FirstOf (fun row => row.name = name) spec.rows e := by
    rw [indexed.equalRange_eq, List.head?_filter]
    exact find?_eq_some_iff_firstOf fun row => decide_eq_true_iff
  have fitting (n : Nat) : (spec.equalRange name).find? (fits · n) = some e ↔
      FirstOf (fun row => row.name = name ∧ fits row n = true) spec.rows e := by
    rw [indexed.equalRange_eq, List.find?_filter]
    exact find?_eq_some_iff_firstOf fun row => by simp
  have unfitting (n : Nat) : (spec.equalRange name).find? (fits · n) = none ↔
      ∀ row ∈ spec.rows, row.name = name → fits row n = false := by
    rw [indexed.equalRange_eq, List.find?_eq_none]
    simp [List.mem_filter]
  unfold Chosen
  cases arguments with
  | none =>
      rw [Option.bind_none, Option.none_or, first]
      simp
  | some n =>
      rw [Option.bind_some, Option.or_eq_some_iff, fitting, unfitting, first]
      simp

/-- An alias stands where the table has it. -/
theorem Indexed.found_iff (indexed : spec.Indexed) {row i : Nat} :
    spec.byAlias.find? (·.1 = name) = some (name, row, i) ↔
      ∃ e a, spec.rows[row]? = some e ∧ e.chk[i]? = some a ∧ a.name = name := by
  constructor
  · intro found
    have mem := List.mem_of_find?_eq_some found
    rw [indexed.aliases] at mem
    obtain ⟨place, here, same⟩ := List.mem_map.mp mem
    cases same
    obtain ⟨e, a, row, i, -, named⟩ := mem_places.mp here
    exact ⟨e, a, row, i, named.symm⟩
  · rintro ⟨e, a, found, found', named⟩
    have here : (⟨e.name, name, row, i⟩ : Place) ∈ places spec.rows :=
      mem_places.mpr ⟨e, a, found, found', rfl, named.symm⟩
    cases first : spec.byAlias.find? (·.1 = name) with
    | none =>
        have none := List.find?_eq_none.mp first (name, row, i) ?_
        · exact absurd (decide_eq_true rfl) none
        · rw [indexed.aliases]
          exact List.mem_map.mpr ⟨_, here, rfl⟩
    | some other =>
        have mem := List.mem_of_find?_eq_some first
        have named' : decide (other.1 = name) = true :=
          List.find?_some (p := fun found : List Char × Nat × Nat => found.1 = name) first
        have named' := of_decide_eq_true named'
        rw [indexed.aliases] at mem
        obtain ⟨place, there, rfl⟩ := List.mem_map.mp mem
        have same := List.inj_on_of_nodup_map indexed.distinct there here named'
        rw [same]
        rfl

theorem Indexed.resolve_eq_some_iff (indexed : spec.Indexed) {m : LibraryMatch} :
    spec.resolve name arguments = some m ↔ StandsFor spec.rows arguments name m := by
  unfold resolve
  cases found : spec.byAlias.find? (·.1 = name) with
  | none =>
      dsimp only
      rw [Option.map_eq_some_iff]
      constructor
      · rintro ⟨e, chosen, rfl⟩
        exact .row ((indexed.chosen_iff e).mp chosen)
      · intro stands
        cases stands with
        | @row e chosen => exact ⟨e, (indexed.chosen_iff e).mpr chosen, rfl⟩
        | @chk e a row mem named =>
            obtain ⟨row, here⟩ := List.mem_iff_getElem?.mp row
            obtain ⟨i, there⟩ := List.mem_iff_getElem?.mp mem
            have found' := indexed.found_iff.mpr ⟨e, a, here, there, named⟩
            rw [found] at found'
            cases found'
  | some other =>
      obtain ⟨other, row, i⟩ := other
      have same : decide (other = name) = true :=
        List.find?_some (p := fun found : List Char × Nat × Nat => found.1 = name) found
      obtain rfl := of_decide_eq_true same
      obtain ⟨e, a, here, there, named⟩ := indexed.found_iff.mp found
      dsimp only
      rw [here, Option.bind_some, there, Option.map_some, Option.some.injEq]
      have row := List.mem_of_getElem? here
      constructor
      · rintro rfl
        exact .chk row (List.mem_of_getElem? there) named
      · intro stands
        cases stands with
        | @row e' chosen =>
            -- a row's name is no alias's
            have place : (⟨e.name, a.name, _, i⟩ : Place) ∈ places spec.rows :=
              mem_places.mpr ⟨e, a, here, there, rfl, rfl⟩
            refine absurd ?_ (indexed.apart _ place e' chosen.mem.1)
            rw [chosen.mem.2, named]
        | @chk e' a' row' mem' named' =>
            obtain ⟨row', here'⟩ := List.mem_iff_getElem?.mp row'
            obtain ⟨i', there'⟩ := List.mem_iff_getElem?.mp mem'
            have found' := indexed.found_iff.mpr ⟨e', a', here', there', named'⟩
            rw [found] at found'
            cases found'
            rw [here] at here'
            cases here'
            rw [there] at there'
            cases there'
            rfl

theorem Indexed.resolve_isSome_iff (indexed : spec.Indexed) (arguments : Option Nat) :
    (∃ m, spec.resolve name arguments = some m) ↔ Known spec.rows name := by
  constructor
  · rintro ⟨m, found⟩
    cases indexed.resolve_eq_some_iff.mp found with
    | @row e chosen => exact .inl ⟨e, chosen.mem⟩
    | @chk e a row mem named => exact .inr ⟨e, row, a, mem, named⟩
  · rintro (⟨e, row, named⟩ | ⟨e, row, a, mem, named⟩)
    · obtain ⟨e, chosen⟩ := exists_chosen arguments row named
      exact ⟨_, indexed.resolve_eq_some_iff.mpr (.row chosen)⟩
    · exact ⟨_, indexed.resolve_eq_some_iff.mpr (.chk row mem named)⟩

/-! ## Lookups -/

theorem Indexed.lookup_eq_some_iff (indexed : spec.Indexed) {m : LibraryMatch} :
    spec.lookup name arguments = some m ↔
      StandsFor spec.rows arguments name m ∨
        ¬ Known spec.rows name ∧
          ∃ rest, name = builtin ++ rest ∧ StandsFor spec.rows arguments rest m := by
  unfold lookup
  cases found : spec.resolve name arguments with
  | some m' =>
      have known := (indexed.resolve_isSome_iff arguments).mp ⟨m', found⟩
      dsimp only
      rw [← found, indexed.resolve_eq_some_iff]
      exact (or_iff_left fun other => other.1 known).symm
  | none =>
      have none : ¬ StandsFor spec.rows arguments name m := fun stands => by
        rw [indexed.resolve_eq_some_iff.mpr stands] at found
        cases found
      have unknown : ¬ Known spec.rows name := fun known => by
        obtain ⟨m', found'⟩ := (indexed.resolve_isSome_iff arguments).mpr known
        rw [found] at found'
        cases found'
      dsimp only
      rw [or_iff_right none, and_iff_right unknown]
      by_cases starts : builtin.isPrefixOf name = true
      · obtain ⟨rest, rfl⟩ := List.isPrefixOf_iff_prefix.mp starts
        rw [if_pos starts, List.drop_left, indexed.resolve_eq_some_iff]
        constructor
        · intro stands
          exact ⟨rest, rfl, stands⟩
        · rintro ⟨rest', same, stands⟩
          rw [List.append_cancel_left same]
          exact stands
      · rw [if_neg starts]
        refine iff_of_false (Option.some_ne_none m).symm ?_
        rintro ⟨rest, rfl, -⟩
        exact starts (List.isPrefixOf_iff_prefix.mpr (List.prefix_append _ _))

/-- The parser ends on every text.  In a table it accepts, what a row names are
its parameters, an alias's name is no row's and no other alias's, and a lookup
finds what the name stands for, or what it stands for behind `__builtin_`. -/
theorem parse_wellFormed (text : List Char) : parse text ≠ .error .tired ∧
    ∀ spec, parse text = .ok spec →
      (∀ row ∈ spec.rows, row.WellFormed) ∧
      (∀ a ∈ aliasNames spec.rows, ∀ row ∈ spec.rows, row.name ≠ a) ∧
      (aliasNames spec.rows).Nodup ∧
      ∀ name arguments m, spec.lookup name arguments = some m ↔
        StandsFor spec.rows arguments name m ∨
          ¬ Known spec.rows name ∧
            ∃ rest, name = builtin ++ rest ∧ StandsFor spec.rows arguments rest m := by
  refine ⟨(safe_parse text).not_tired, fun spec accepted => ?_⟩
  have indexed : spec.Indexed := (safe_parse text).of_ok accepted
  refine ⟨fun row mem => (indexed.rows row mem).2.1, fun a mem row isRow => ?_, ?_,
    fun name arguments m => indexed.lookup_eq_some_iff⟩
  · rw [← places_names] at mem
    obtain ⟨place, here, rfl⟩ := List.mem_map.mp mem
    exact indexed.apart place here row isRow
  · rw [← places_names]
    exact indexed.distinct

theorem parse_of_rows (text : List Char) (rows : List LibraryEntry)
    (read : (parse text).toOption.map LibrarySpec.rows = some rows) :
    ∃ spec, parse text = .ok spec ∧ spec.rows = rows := by
  cases parsed : parse text with
  | error why =>
      rw [parsed] at read
      cases read
  | ok spec =>
      rw [parsed] at read
      cases read
      exact ⟨spec, rfl, rfl⟩

/-- Two rows of one name. -/
def overloadsText : List Char := "f(int) -> int;\nf(int, int) -> int;".toList

def unary : LibraryEntry where
  name := ['f']
  params := [{}]
  result := .int

def binary : LibraryEntry where
  name := ['f']
  params := [{}, {}]
  result := .int

theorem parse_wellFormed_overloads : ∃ spec, parse overloadsText = .ok spec ∧
    spec.lookup "__builtin_f".toList (some 2) = some ⟨binary, none⟩ := by
  obtain ⟨spec, accepted, rows⟩ := parse_of_rows overloadsText [unary, binary] (by decide +kernel)
  obtain ⟨-, -, -, lookups⟩ := (parse_wellFormed overloadsText).2 spec accepted
  have unknown : ¬ Known spec.rows "__builtin_f".toList := by
    rw [rows]
    unfold Known
    decide
  have second : FirstOf (fun row => row.name = ['f'] ∧ fits row 2 = true) spec.rows binary := by
    refine ⟨[unary], [], rows, ⟨rfl, rfl⟩, fun row mem => ?_⟩
    cases List.mem_singleton.mp mem
    decide
  refine ⟨spec, accepted, (lookups _ _ _).mpr (.inr ⟨unknown, ['f'], rfl, .row ?_⟩)⟩
  exact .inl ⟨2, rfl, second⟩

end LibrarySpec

end WeaveC.Calls
