import WeaveC.Calls.SpellingSpec
import WeaveC.Calls.Table
import WeaveC.Library.Checks

/-!
# What the library table accepts

The reader of the table ends on every text, and the rows, names and aliases of a
table it accepts are well-formed.  A lookup finds what its name stands for.
-/

namespace WeaveC.Calls

open WeaveC.Library WeaveC.Library.Reader

/-! ## Numbers that fit their fields -/

/-- The terms of a parameter are terms of the language. -/
structure LibraryParam.Fits (param : LibraryParam) : Prop where
  bytes : ∀ t ∈ param.bytes, t.Valid
  count : ∀ t ∈ param.count, t.Valid
  zeroTerm : ∀ t ∈ param.zeroTerm, t.Valid
  scan : ∀ t ∈ param.scan, t.Valid

/-- An alias's list has entries, each of which fits a signed byte. -/
structure LibraryChk.Fits (chk : LibraryChk) : Prop where
  nonempty : chk.argumentOf ≠ []
  entries : ∀ i ∈ chk.argumentOf, -1 ≤ i ∧ i ≤ 127

/-- Every number of a row fits the bytes that hold it. -/
structure LibraryEntry.Fits (entry : LibraryEntry) : Prop where
  params : ∀ p ∈ entry.params, p.Fits
  value : ∀ t ∈ entry.value, t.Valid
  disjoint : ∀ d ∈ entry.disjoint, d.first ≤ 255 ∧ d.second ≤ 255 ∧ d.length.Valid
  format : ∀ f ∈ entry.format, f.format ≤ 255 ∧ f.first ≤ 255
  chk : ∀ a ∈ entry.chk, a.Fits

/-! ## Well-formed rows -/

/-- The terms of a parameter. -/
def LibraryParam.terms (param : LibraryParam) : List LibTerm :=
  param.bytes.toList ++ param.count.toList ++ param.zeroTerm.toList ++ param.scan.toList

/-- A term's arguments are parameters, and its strings are pointers. -/
def LibTerm.Within (params : List LibraryParam) : LibTerm → Prop
  | .constant _ => True
  | .argument arg => arg < params.length
  | .stringLength arg => ∃ param, params[arg]? = some param ∧ param.type = .pointer
  | .product left right | .sum left right | .min left right =>
      left.Within params ∧ right.Within params
  | .difference left _ | .quotient left _ => left.Within params

/-- What a row names are its parameters. -/
structure LibraryEntry.WellFormed (row : LibraryEntry) : Prop where
  params : ∀ p ∈ row.params, ∀ t ∈ p.terms, t.Within row.params
  value : ∀ t ∈ row.value, t.Within row.params
  disjoint : ∀ d ∈ row.disjoint,
    d.first < row.params.length ∧ d.second < row.params.length ∧ d.length.Within row.params
  format : ∀ f ∈ row.format,
    f.format < row.params.length ∧ (row.variadic = false → f.first < row.params.length)
  chk : ∀ a ∈ row.chk, row.variadic = false → ∀ i ∈ a.argumentOf, i < row.params.length

/-- The rules of a row that are about more than one of its clauses. -/
structure LibraryEntry.Consistent (row : LibraryEntry) : Prop where
  wide : ∀ p ∈ row.params, p.count.isSome → row.wide
  scan : ∀ p ∈ row.params, p.scan.isSome → row.result ≠ .void ∧ row.wrapper = none
  wrapper : ∀ w ∈ row.wrapper, w.name = row.name

namespace LibrarySpecParser

/-! ## Tokens -/

section Tokens

variable {token : List Char} {n : Nat}

theorem ends_accept {Q : Bool → Nat → Prop} (symbols : token ≠ []) (yes : ∀ m, m < n → Q true m)
    (no : ∀ m, m ≤ n → Q false m) : Ends (accept token) Q n := by
  rintro text rfl
  have shorter := TermReader.skipSpace_length text
  have symbol := List.length_pos_iff.mpr symbols
  unfold accept
  by_cases starts : token.isPrefixOf (TermReader.skipSpace text) = true
  · have within := (List.isPrefixOf_iff_prefix.mp starts).length_le
    simp only [starts, if_true]
    apply yes
    rw [List.length_drop]
    omega
  · simp only [starts]
    exact no _ shorter

theorem ends_word {Q : List Char → Nat → Prop} (holds : ∀ w m, w.length + m ≤ n → Q w m) :
    Ends word Q n := by
  rintro text rfl
  have shorter := TermReader.skipSpace_length text
  have taken := (List.takeWhile_prefix (l := TermReader.skipSpace text)
    fun c => isIdentifierChar c || c == '-').length_le
  apply holds
  dsimp only
  rw [List.length_drop]
  omega

theorem gives_accept (symbols : token ≠ []) : Gives (accept token) fun _ => True :=
  fun _ => ends_accept symbols (fun _ fewer => ⟨trivial, Nat.le_of_lt fewer⟩)
    fun _ fewer => ⟨trivial, fewer⟩

theorem gives_word : Gives word fun _ => True :=
  fun _ => ends_word fun w m left => ⟨trivial, by omega⟩

theorem gives_atEnd : Gives atEnd fun _ => True := by
  rintro n text rfl
  exact ⟨trivial, TermReader.skipSpace_length text⟩

theorem gives_ahead {c : Char} : Gives (ahead c) fun _ => True := by
  rintro n text rfl
  exact ⟨trivial, TermReader.skipSpace_length text⟩

theorem gives_expect {c : Char} {context : String} : Gives (expect c context) fun _ => True :=
  gives_bind (gives_accept (List.cons_ne_nil _ _)) fun _ _ =>
    gives_ite (fun _ => gives_pure trivial) fun _ => gives_fail

theorem gives_name {what : String} : Gives (name what) fun _ => True :=
  gives_bind gives_word fun _ _ => gives_ite (fun _ => gives_pure trivial) fun _ => gives_fail

theorem indexDigits_length (value : Nat) (text : List Char) :
    (indexDigits value text).2.length ≤ text.length := by
  induction text generalizing value with
  | nil => exact Nat.le_refl _
  | cons c rest inductionHypothesis =>
      rw [indexDigits]
      split
      · exact Nat.le_succ_of_le (inductionHypothesis _)
      · exact Nat.le_refl _

theorem gives_index {what : String} : Gives (index what) (· ≤ 255) := by
  rintro n text rfl
  have shorter := TermReader.skipSpace_length text
  have fewer := indexDigits_length 0 (TermReader.skipSpace text)
  unfold index
  dsimp only
  split_ifs with none large
  · trivial
  · trivial
  · exact ⟨Nat.le_of_not_lt large, Nat.le_trans fewer shorter⟩

theorem gives_term {context : String} : Gives (term context) LibTerm.Valid := by
  rintro n text rfl
  have steps := ((TermReader.stable (TermReader.enough text.length)).sum _ text (Nat.le_refl _)
    (Nat.le_refl _)).2
  unfold term
  cases read : TermReader.sum (TermReader.enough text.length) text with
  | ok taken =>
      obtain ⟨shorter, valid⟩ := (TermReader.taken _).sum text taken.1 taken.2 read
      exact ⟨valid, Nat.le_of_lt shorter⟩
  | error why =>
      cases why with
      | tired => exact absurd read steps
      | failed message => trivial

theorem gives_parenthesisedTerm {flag : String} :
    Gives (parenthesisedTerm flag) LibTerm.Valid :=
  gives_bind gives_expect fun _ _ => gives_bind gives_term fun _ valid =>
    gives_bind gives_expect fun _ _ => gives_pure valid

end Tokens

/-! ## Parameters -/

theorem valid_of_mem_some {value : LibTerm} (valid : value.Valid) : ∀ t ∈ some value, t.Valid := by
  intro t mem
  cases mem
  exact valid

theorem valid_one : (LibTerm.constant 1).Valid := ⟨by decide, by decide⟩

theorem gives_parseFlag {param : LibraryParam} {flag : List Char} (fits : param.Fits) :
    Gives (parseFlag param flag) LibraryParam.Fits := by
  unfold parseFlag
  refine gives_ite (fun _ => ?_) fun _ => gives_ite (fun _ => ?_) fun _ =>
    gives_ite (fun _ => ?_) fun _ => gives_ite (fun _ => ?_) fun _ =>
    gives_ite (fun _ => ?_) fun _ => gives_ite (fun _ => ?_) fun _ =>
    gives_ite (fun _ => ?_) fun _ => gives_ite (fun _ => ?_) fun _ => gives_fail
  · exact gives_bind gives_parenthesisedTerm fun value valid =>
      gives_pure { fits with bytes := valid_of_mem_some valid }
  · exact gives_bind gives_parenthesisedTerm fun value valid =>
      gives_pure { fits with count := valid_of_mem_some valid }
  · exact gives_pure { fits with }
  · refine gives_bind gives_ahead fun paren _ => gives_ite (fun _ => ?_) fun _ => ?_
    · exact gives_bind gives_parenthesisedTerm fun value valid =>
        gives_pure { fits with scan := valid_of_mem_some valid }
    · exact gives_pure { fits with scan := valid_of_mem_some valid_one }
  · exact gives_pure { fits with }
  · exact gives_bind gives_parenthesisedTerm fun value valid =>
      gives_pure { fits with zeroTerm := valid_of_mem_some valid }
  · exact gives_pure { fits with }
  · exact gives_pure { fits with }

theorem round_flag {state : LibraryParam × List (List Char)} (fits : state.1.Fits) :
    Round (flagRound state) (fun s => s.1.Fits) fun s => s.1.Fits := by
  intro n
  refine ends_bind (ends_accept (List.cons_ne_nil _ _) (fun m fewer => ?_) fun m fewer => ?_)
  · refine Gives.round ?_ fewer
    refine gives_bind gives_word fun flag _ => gives_ite (fun _ => gives_fail) fun _ => ?_
    exact gives_bind (gives_parseFlag fits) fun param fits => gives_pure fits
  · exact ends_pure ⟨fits, fewer⟩

theorem gives_parseParam : Gives parseParam LibraryParam.Fits := by
  have plain {type : LibraryParam.ParamType} {access : LibraryParam.Access} :
      LibraryParam.Fits { type := type, access := access } :=
    ⟨fun t mem => absurd mem (Option.not_mem_none t), fun t mem => absurd mem (Option.not_mem_none t),
      fun t mem => absurd mem (Option.not_mem_none t),
      fun t mem => absurd mem (Option.not_mem_none t)⟩
  unfold parseParam
  refine gives_bind gives_word fun head _ => gives_ite (fun _ => gives_pure plain) fun _ =>
    gives_ite (fun _ => gives_pure plain) fun _ => gives_ite (fun _ => gives_pure plain) fun _ => ?_
  cases accessOf head with
  | none => exact gives_fail
  | some access =>
      refine gives_bind (gives_loop _ (fun s => round_flag) plain) fun state fits => ?_
      exact gives_ite (fun _ => gives_fail) fun _ => gives_ite (fun _ => gives_fail) fun _ =>
        gives_ite (fun _ => gives_fail) fun _ => gives_ite (fun _ => gives_fail) fun _ =>
        gives_pure fits

/-! ## Results and clauses -/

section Clauses

variable {entry : LibraryEntry}

theorem gives_parseResult (fits : entry.Fits) : Gives (parseResult entry) LibraryEntry.Fits := by
  unfold parseResult
  refine gives_bind gives_word fun kind _ => gives_ite (fun _ => gives_pure { fits with }) fun _ =>
    gives_ite (fun _ => gives_pure { fits with }) fun _ => gives_ite (fun _ => ?_) fun _ => gives_fail
  refine gives_bind (gives_accept (List.cons_ne_nil _ _)) fun colon _ =>
    gives_ite (fun _ => ?_) fun _ => gives_pure { fits with }
  refine gives_bind gives_word fun word _ => gives_ite (fun _ => gives_fail) fun _ => ?_
  exact gives_bind gives_parenthesisedTerm fun value valid =>
    gives_pure { fits with value := valid_of_mem_some valid }

theorem gives_parseDisjoint (fits : entry.Fits) :
    Gives (parseDisjoint entry) LibraryEntry.Fits := by
  unfold parseDisjoint
  refine gives_bind gives_expect fun _ _ => gives_bind gives_index fun first small =>
    gives_bind gives_expect fun _ _ => gives_bind gives_index fun second small' =>
    gives_bind gives_expect fun _ _ => gives_bind gives_term fun length valid =>
    gives_bind gives_expect fun _ _ => gives_pure { fits with disjoint := ?_ }
  intro d mem
  rcases List.mem_append.mp mem with old | new
  · exact fits.disjoint d old
  · cases List.mem_singleton.mp new
    exact ⟨small, small', valid⟩

theorem gives_parseFormat {kind : LibFormat.Kind} {clause : String} (fits : entry.Fits) :
    Gives (parseFormat entry kind clause) LibraryEntry.Fits := by
  unfold parseFormat
  refine gives_ite (fun _ => gives_fail) fun _ => gives_bind gives_expect fun _ _ =>
    gives_bind gives_index fun format small => gives_bind gives_expect fun _ _ =>
    gives_bind gives_index fun first small' => gives_bind gives_expect fun _ _ =>
    gives_pure { fits with format := ?_ }
  intro f mem
  cases mem
  exact ⟨small, small'⟩

theorem gives_parseWrapper (fits : entry.Fits) :
    Gives (parseWrapper entry) LibraryEntry.Fits := by
  unfold parseWrapper
  exact gives_ite (fun _ => gives_fail) fun _ => gives_bind gives_expect fun _ _ =>
    gives_bind gives_name fun wrapped _ => gives_bind gives_expect fun _ _ =>
    gives_pure { fits with }

/-- One more entry of an alias's list. -/
theorem fits_snoc {chk : LibraryChk} {i : Int} {argumentOf : List Int} (low : -1 ≤ i)
    (high : i ≤ 127) (entries : ∀ i ∈ chk.argumentOf, -1 ≤ i ∧ i ≤ 127)
    (next : argumentOf = chk.argumentOf ++ [i]) :
    argumentOf ≠ [] ∧ ∀ i ∈ argumentOf, -1 ≤ i ∧ i ≤ 127 := by
  subst next
  refine ⟨List.append_ne_nil_of_right_ne_nil _ (List.cons_ne_nil _ _), fun j mem => ?_⟩
  rcases List.mem_append.mp mem with old | new
  · exact entries j old
  · cases List.mem_singleton.mp new
    exact ⟨low, high⟩

theorem gives_parseArgument {chk : LibraryChk}
    (entries : ∀ i ∈ chk.argumentOf, -1 ≤ i ∧ i ≤ 127) :
    Gives (parseArgument chk) LibraryChk.Fits := by
  have dropped := fits_snoc (i := -1) (by decide) (by decide) entries rfl
  unfold parseArgument
  refine gives_bind (gives_accept (List.cons_ne_nil _ _)) fun size _ => gives_ite (fun _ => ?_)
    fun _ => gives_bind (gives_accept (List.cons_ne_nil _ _)) fun flag _ =>
    gives_ite (fun _ => gives_pure ⟨dropped.1, dropped.2⟩) fun _ => ?_
  · exact gives_ite (fun _ => gives_fail) fun _ => gives_pure ⟨dropped.1, dropped.2⟩
  · refine gives_bind gives_index fun row _ => gives_ite (fun _ => gives_fail) fun small => ?_
    have kept := fits_snoc (i := (row : Int)) (by omega) (by omega) entries rfl
    exact gives_pure ⟨kept.1, kept.2⟩

theorem round_argument {chk : LibraryChk} (entries : ∀ i ∈ chk.argumentOf, -1 ≤ i ∧ i ≤ 127) :
    Round (argumentRound chk) (fun chk => ∀ i ∈ chk.argumentOf, -1 ≤ i ∧ i ≤ 127)
      LibraryChk.Fits := by
  intro n
  refine ends_bind ((gives_parseArgument entries n).mono fun chk m left => ?_)
  have shorter := left.2
  refine ends_bind (ends_accept (List.cons_ne_nil _ _) (fun k fewer => ?_) fun k fewer => ?_)
  · exact ends_pure ⟨left.1.entries, by omega⟩
  · exact ends_pure ⟨left.1, by omega⟩

theorem gives_parseChk (fits : entry.Fits) : Gives (parseChk entry) LibraryEntry.Fits := by
  unfold parseChk
  refine gives_bind gives_expect fun _ _ => gives_bind gives_name fun aliasName _ =>
    gives_bind gives_expect fun _ _ => ?_
  refine gives_bind (gives_loop _ (fun chk => round_argument) fun i mem => ?_) fun chk list =>
    gives_bind gives_expect fun _ _ => gives_pure { fits with chk := ?_ }
  · cases mem
  · intro a mem
    rcases List.mem_append.mp mem with old | new
    · exact fits.chk a old
    · cases List.mem_singleton.mp new
      exact list

theorem gives_parseClause {clause : List Char} (fits : entry.Fits) :
    Gives (parseClause entry clause) LibraryEntry.Fits := by
  unfold parseClause
  refine gives_ite (fun _ => ?_) fun _ => gives_ite (fun _ => gives_parseDisjoint fits) fun _ =>
    gives_ite (fun _ => gives_parseFormat fits) fun _ =>
    gives_ite (fun _ => gives_parseFormat fits) fun _ =>
    gives_ite (fun _ => gives_parseWrapper fits) fun _ =>
    gives_ite (fun _ => gives_parseChk fits) fun _ => gives_fail
  exact gives_ite (fun _ => gives_fail) fun _ => gives_pure { fits with }

end Clauses

/-! ## Entries -/

section Entries

variable {entry : LibraryEntry}

theorem round_param (fits : entry.Fits) :
    Round (paramRound entry) LibraryEntry.Fits LibraryEntry.Fits := by
  intro n
  refine ends_bind (ends_accept (List.cons_ne_nil _ _) (fun m fewer => ?_) fun m fewer => ?_)
  · exact ends_pure ⟨{ fits with }, Nat.le_of_lt fewer⟩
  · refine ends_bind ((gives_parseParam m).mono fun param k left => ?_)
    have shorter := left.2
    have more : LibraryEntry.Fits { entry with params := entry.params ++ [param] } := by
      refine { fits with params := fun p mem => ?_ }
      rcases List.mem_append.mp mem with old | new
      · exact fits.params p old
      · cases List.mem_singleton.mp new
        exact left.1
    refine ends_bind (ends_accept (List.cons_ne_nil _ _) (fun j fewer' => ?_) fun j fewer' => ?_)
    · exact ends_pure ⟨more, by omega⟩
    · exact ends_pure ⟨more, by omega⟩

theorem gives_parseParams (fits : entry.Fits) : Gives (parseParams entry) LibraryEntry.Fits := by
  unfold parseParams
  refine gives_bind (gives_accept (List.cons_ne_nil _ _)) fun empty _ =>
    gives_ite (fun _ => gives_pure fits) fun _ => ?_
  refine gives_bind (gives_loop _ (fun entry => round_param) fits) fun entry fits => ?_
  exact gives_bind gives_expect fun _ _ => gives_pure fits

theorem round_clause (fits : entry.Fits) :
    Round (clauseRound entry) LibraryEntry.Fits LibraryEntry.Fits := by
  intro n
  refine ends_bind (ends_accept (List.cons_ne_nil _ _) (fun m fewer => ?_) fun m fewer => ?_)
  · exact ends_pure ⟨fits, Nat.le_of_lt fewer⟩
  · refine ends_bind ((gives_atEnd m).mono fun ended k left => ?_)
    have shorter := left.2
    refine ends_ite (fun _ => ends_fail) fun _ => ends_bind (ends_word fun clause j taken => ?_)
    refine ends_ite (fun _ => ends_fail) fun nonempty => ?_
    -- the clause's word is what the round takes
    have symbol := List.length_pos_iff.mpr nonempty
    refine Gives.round ?_ (by omega : j < n)
    exact gives_bind (gives_parseClause fits) fun entry fits => gives_pure fits

theorem gives_parseRest (fits : entry.Fits) :
    Gives (parseRest entry) fun entry => entry.Fits ∧ validateEntry entry = .ok () := by
  unfold parseRest
  refine gives_bind gives_expect fun _ _ => gives_bind (gives_parseParams fits) fun entry fits =>
    gives_bind (gives_accept (List.cons_ne_nil _ _)) fun arrow _ => gives_ite (fun _ => ?_)
    fun _ => gives_fail
  refine gives_bind (gives_parseResult fits) fun entry fits =>
    gives_bind (gives_loop _ (fun entry => round_clause) fits) fun entry fits =>
    gives_bind gives_atEnd fun ended _ => gives_ite (fun _ => ?_) fun _ => gives_fail
  cases valid : validateEntry entry with
  | ok nothing => exact gives_pure ⟨fits, valid⟩
  | error why => exact gives_fail

theorem gives_parseEntry :
    Gives parseEntry fun entry => entry.Fits ∧ validateEntry entry = .ok () := by
  refine gives_bind gives_name fun rowName _ => gives_explain (gives_parseRest ⟨?_, ?_, ?_, ?_, ?_⟩)
  · exact fun p mem => absurd mem List.not_mem_nil
  · exact fun t mem => absurd mem (Option.not_mem_none t)
  · exact fun d mem => absurd mem List.not_mem_nil
  · exact fun f mem => absurd mem (Option.not_mem_none f)
  · exact fun a mem => absurd mem List.not_mem_nil

end Entries

/-! ## Validation -/

theorem refuse_eq_ok {bad : Prop} [Decidable bad] {why : String} :
    refuse bad why = .ok () ↔ ¬ bad := by
  unfold refuse
  split
  · rename_i holds
    exact iff_of_false (fun same => by cases same) (not_not_intro holds)
  · rename_i fails
    exact iff_of_true rfl fails

theorem andThen_eq_ok {x : Except String Unit} {y : Unit → Except String Unit} :
    (x >>= y) = .ok () ↔ x = .ok () ∧ y () = .ok () := by
  cases x with
  | ok done => exact (and_iff_right rfl).symm
  | error why =>
      refine iff_of_false (fun same => ?_) fun both => ?_
      · cases same
      · cases both.1

theorem forM_eq_ok {α : Type} {f : α → Except String Unit} (l : List α) :
    l.forM f = .ok () ↔ ∀ a ∈ l, f a = .ok () := by
  induction l with
  | nil => exact iff_of_true rfl fun a mem => absurd mem List.not_mem_nil
  | cons a l inductionHypothesis =>
      change (f a >>= fun _ => l.forM f) = .ok () ↔ _
      rw [andThen_eq_ok, inductionHypothesis, List.forall_mem_cons]

theorem forM_option_eq_ok {α : Type} {f : α → Except String Unit} (a : Option α) :
    a.forM f = .ok () ↔ ∀ b ∈ a, f b = .ok () := by
  cases a with
  | none => exact iff_of_true rfl fun b mem => absurd mem (Option.not_mem_none b)
  | some a => exact ⟨fun ok b mem => by cases mem; exact ok, fun all => all a rfl⟩

section Validation

variable {entry : LibraryEntry}

theorem validateArg_eq_ok {context : String} {arg : Nat} :
    validateArg entry context arg = .ok () ↔ arg < entry.params.length := by
  unfold validateArg
  rw [refuse_eq_ok, Nat.not_le]

theorem validateTerm_eq_ok {context : String} (t : LibTerm) :
    validateTerm entry context t = .ok () ↔ t.Within entry.params := by
  induction t with
  | constant value => exact iff_of_true rfl trivial
  | argument arg => exact validateArg_eq_ok
  | stringLength arg =>
      rw [validateTerm, andThen_eq_ok, validateArg_eq_ok, refuse_eq_ok]
      unfold LibTerm.Within
      cases found : entry.params[arg]? with
      | none =>
          have past := List.getElem?_eq_none_iff.mp found
          exact iff_of_false (fun both => absurd both.1 (Nat.not_lt.mpr past))
            fun ⟨p, same, _⟩ => by cases same
      | some param =>
          have within := (List.getElem?_eq_some_iff.mp found).1
          simp [within]
  | product left right first second | sum left right first second
  | min left right first second =>
      rw [validateTerm, andThen_eq_ok, first, second, LibTerm.Within]
  | difference left value operand | quotient left value operand =>
      rw [validateTerm, operand, LibTerm.Within]

theorem validateSome_eq_ok {context : String} (value : Option LibTerm) :
    validateSome entry context value = .ok () ↔ ∀ t ∈ value, t.Within entry.params := by
  cases value with
  | none => exact iff_of_true rfl fun t mem => absurd mem (Option.not_mem_none t)
  | some t =>
      refine (validateTerm_eq_ok t).trans ⟨fun within t mem => ?_, fun all => all t rfl⟩
      cases mem
      exact within

theorem validateParam_eq_ok {param : LibraryParam} {i : Nat} :
    validateParam entry (param, i) = .ok () ↔
      (∀ t ∈ param.terms, t.Within entry.params) ∧ (param.count.isSome → entry.wide) := by
  unfold validateParam LibraryParam.terms
  simp only [andThen_eq_ok, validateSome_eq_ok, refuse_eq_ok, List.mem_append, Option.mem_toList,
    Option.mem_def, or_imp, forall_and, and_assoc, not_and, Bool.not_eq_true', Bool.not_eq_false]

theorem validateDisjoint_eq_ok {d : LibDisjoint} : validateDisjoint entry d = .ok () ↔
    d.first < entry.params.length ∧ d.second < entry.params.length ∧
      d.length.Within entry.params := by
  unfold validateDisjoint
  rw [andThen_eq_ok, refuse_eq_ok, validateTerm_eq_ok, not_or, Nat.not_le, Nat.not_le, and_assoc]

theorem validateFormat_eq_ok {f : LibFormat} : validateFormat entry f = .ok () ↔
    f.format < entry.params.length ∧ (entry.variadic = false → f.first < entry.params.length) := by
  unfold validateFormat
  rw [refuse_eq_ok, not_or, Nat.not_le]
  simp

theorem validateChk_eq_ok {a : LibraryChk} : validateChk entry a = .ok () ↔
    (entry.variadic = false → ∀ i ∈ a.argumentOf, i < entry.params.length) := by
  unfold validateChk
  rw [refuse_eq_ok]
  simp
  grind

theorem validateEntry_eq_ok :
    validateEntry entry = .ok () ↔ entry.WellFormed ∧ entry.Consistent := by
  have params : (∀ p ∈ entry.params.zipIdx, validateParam entry p = .ok ()) ↔
      ∀ p ∈ entry.params,
        (∀ t ∈ p.terms, t.Within entry.params) ∧ (p.count.isSome → entry.wide) := by
    constructor
    · intro all p mem
      obtain ⟨i, found⟩ := List.mem_iff_getElem?.mp mem
      exact validateParam_eq_ok.mp (all (p, i) (List.mem_zipIdx_iff_getElem?.mpr found))
    · rintro all ⟨p, i⟩ mem
      exact validateParam_eq_ok.mpr
        (all p (List.mem_of_getElem? (List.mem_zipIdx_iff_getElem?.mp mem)))
  have scans : (entry.params.any (·.scan.isSome)) = true ↔ ∃ p ∈ entry.params, p.scan.isSome :=
    List.any_eq_true
  unfold validateEntry
  simp only [andThen_eq_ok, forM_eq_ok, forM_option_eq_ok, validateSome_eq_ok, refuse_eq_ok,
    validateDisjoint_eq_ok, validateFormat_eq_ok, validateChk_eq_ok, params, scans]
  constructor
  · rintro ⟨params, value, disjoint, format, result, wrapper, same, chk⟩
    refine ⟨⟨fun p mem => (params p mem).1, value, disjoint, format, chk⟩,
      ⟨fun p mem => (params p mem).2, fun p mem scan => ⟨fun void => ?_, ?_⟩, fun w mem => ?_⟩⟩
    · exact result ⟨⟨p, mem, scan⟩, void⟩
    · exact Option.not_isSome_iff_eq_none.mp fun some => wrapper ⟨⟨p, mem, scan⟩, some⟩
    · exact not_not.mp (same w mem)
  · rintro ⟨formed, consistent⟩
    refine ⟨fun p mem => ⟨formed.params p mem, consistent.wide p mem⟩, formed.value,
      formed.disjoint, formed.format, ?_, ?_, fun w mem => not_not_intro (consistent.wrapper w mem),
      formed.chk⟩
    · rintro ⟨⟨p, mem, scan⟩, void⟩
      exact (consistent.scan p mem scan).1 void
    · rintro ⟨⟨p, mem, scan⟩, wrapped⟩
      rw [(consistent.scan p mem scan).2] at wrapped
      cases wrapped

end Validation

/-! ## The rows and the aliases -/

/-- The table while its rows are read. -/
structure Filled (spec : LibrarySpec) : Prop where
  rows : ∀ e ∈ spec.rows, e.Fits ∧ e.WellFormed ∧ e.Consistent
  names : spec.byName = spec.rows.zipIdx.map fun found => (found.1.name, found.2)
  aliases : spec.byAlias = []

theorem filled_empty : Filled {} := ⟨fun _ mem => absurd mem List.not_mem_nil, rfl, rfl⟩

section Filled

variable {spec : LibrarySpec}

theorem Filled.add {entry : LibraryEntry} (filled : Filled spec) (fits : entry.Fits)
    (valid : validateEntry entry = .ok ()) : Filled (add spec entry) where
  rows := by
    intro e mem
    rcases List.mem_append.mp mem with old | new
    · exact filled.rows e old
    · cases List.mem_singleton.mp new
      exact ⟨fits, validateEntry_eq_ok.mp valid⟩
  names := by
    unfold LibrarySpecParser.add
    simp [filled.names, List.zipIdx_append]
  aliases := filled.aliases

theorem safe_parseLine (line : List Char) (filled : Filled spec) :
    Safe (parseLine spec line) Filled := by
  unfold parseLine
  cases TermReader.skipSpace line with
  | nil => exact filled
  | cons c text =>
      have entry := gives_parseEntry _ (c :: text) rfl
      dsimp only
      cases read : parseEntry (c :: text) with
      | ok found => exact filled.add (entry.of_ok read).1.1 (entry.of_ok read).1.2
      | error why =>
          cases why with
          | tired => exact absurd read entry.not_tired
          | failed why => trivial

/-- What is entered of an alias. -/
def Place.found (place : Place) : List Char × Nat × Nat := (place.name, place.row, place.chk)

theorem safe_indexAlias (places : List Place) (spec : LibrarySpec)
    (nodup : (spec.byAlias.map Prod.fst).Nodup)
    (apart : ∀ name ∈ spec.byAlias.map Prod.fst, name ∉ spec.byName.map Prod.fst) :
    Safe (places.foldlM indexAlias spec) fun spec' =>
      spec' = { spec with byAlias := spec.byAlias ++ places.map Place.found } ∧
        (spec'.byAlias.map Prod.fst).Nodup ∧
        ∀ name ∈ spec'.byAlias.map Prod.fst, name ∉ spec'.byName.map Prod.fst := by
  induction places generalizing spec with
  | nil =>
      refine ⟨?_, nodup, apart⟩
      rw [List.map_nil, List.append_nil]
  | cons place places inductionHypothesis =>
      rw [List.foldlM_cons]
      by_cases taken : place.name ∈ spec.byName.map Prod.fst ∨
          place.name ∈ spec.byAlias.map Prod.fst
      · rw [indexAlias, if_pos taken]
        trivial
      · rw [indexAlias, if_neg taken]
        obtain ⟨row, other⟩ := not_or.mp taken
        refine (inductionHypothesis { spec with byAlias := spec.byAlias ++ [place.found] }
          ?_ ?_).mono ?_
        · rw [List.map_append, List.map_singleton, List.nodup_append]
          refine ⟨nodup, List.pairwise_singleton _ _, fun a mem b mem' same => ?_⟩
          rw [same, List.mem_singleton.mp mem'] at mem
          exact other mem
        · intro name mem
          rw [List.map_append, List.mem_append, List.map_singleton, List.mem_singleton] at mem
          rcases mem with old | rfl
          · exact apart name old
          · exact row
        · rintro spec' ⟨rfl, facts⟩
          refine ⟨?_, facts⟩
          rw [List.append_assoc, List.map_cons, List.singleton_append]

end Filled

end LibrarySpecParser

namespace LibrarySpec

open LibrarySpecParser

/-- A table that was read whole. -/
structure Indexed (spec : LibrarySpec) : Prop where
  rows : ∀ e ∈ spec.rows, e.Fits ∧ e.WellFormed ∧ e.Consistent
  names : spec.byName = spec.rows.zipIdx.map fun found => (found.1.name, found.2)
  aliases : spec.byAlias = (places spec.rows).map Place.found
  distinct : ((places spec.rows).map Place.name).Nodup
  apart : ∀ place ∈ places spec.rows, ∀ e ∈ spec.rows, e.name ≠ place.name

theorem safe_parse (text : List Char) : Safe (parse text) Indexed := by
  unfold parse
  refine ((Safe.foldlM (fun spec line filled => safe_parseLine line filled) _ filled_empty).mono
    fun spec filled => ?_).bind
  have none : spec.byAlias.map Prod.fst = [] := by rw [filled.aliases, List.map_nil]
  have nodup : (spec.byAlias.map Prod.fst).Nodup := by
    rw [none]
    exact List.Pairwise.nil
  have apart : ∀ name ∈ spec.byAlias.map Prod.fst, name ∉ spec.byName.map Prod.fst := by
    rw [none]
    exact fun name mem => absurd mem List.not_mem_nil
  refine (safe_indexAlias (places spec.rows) spec nodup apart).mono ?_
  rintro spec' ⟨rfl, nodup, apart⟩
  have found : (List.map Prod.fst (spec.byAlias ++ (places spec.rows).map Place.found)) =
      (places spec.rows).map Place.name := by
    rw [filled.aliases, List.nil_append, List.map_map]
    rfl
  refine ⟨filled.rows, filled.names, ?_, ?_, fun place mem e row same => ?_⟩
  · rw [filled.aliases, List.nil_append]
  · rw [← found]
    exact nodup
  · refine apart place.name ?_ ?_
    · rw [found]
      exact List.mem_map_of_mem mem
    · dsimp only
      rw [filled.names, ← same]
      obtain ⟨i, here⟩ := List.mem_iff_getElem?.mp row
      exact List.mem_map.mpr ⟨(e.name, i),
        List.mem_map.mpr ⟨(e, i), List.mem_zipIdx_iff_getElem?.mpr here, rfl⟩, rfl⟩

end LibrarySpec

end WeaveC.Calls
