import WeaveC.Calls.FormatText
import WeaveC.Library.Checks
import Mathlib.Data.List.Induction

/-!
# What the checks of a format cover

The checks of `checkFormat` pass when the bytes it scans or names for each
argument are addressable.  A conforming function reads a string through each
`%s` and stores a number through each `%n`; the format decides whether those
bytes are among the checked ones, since the scan keeps one kind and one
precision for each argument.
-/

namespace WeaveC.Calls.Format

open WeaveC.Library WeaveC.Runtime

/-! ## What passes -/

section Checks

variable {ctx : Context} {memory : Memory} {uses : Nat → FormatUse} {count : Nat}
  {values : Nat → BitVec 64}

/-- The bytes checked from an argument's pointer on. -/
def extent (memory : Memory) (uses : Nat → FormatUse) (count : Nat) (values : Nat → BitVec 64)
    (i : Nat) : Nat :=
  match (uses i).kind with
  | .string =>
      let precision := precisionOf uses count values i
      let max := if precision < 0 then 0xFFFFFFFFFFFFFFFF else precision.toNat
      if (values i).toNat = 0 then 0 else scanned memory (values i).toNat max
  | .target => (uses i).bytes
  | _ => 0

/-- The bytes checked for an argument are addressable. -/
def Passes (ctx : Context) (memory : Memory) (uses : Nat → FormatUse) (count : Nat)
    (values : Nat → BitVec 64) (shadow : Shadow) (i : Nat) : Prop :=
  unaddressable ctx shadow (reached ctx shadow (values i).toNat)
    (extent memory uses count values i) = ∅

theorem Settles.passes {shadow shadow' : Shadow} (same : Settles ctx shadow shadow') (i : Nat) :
    Passes ctx memory uses count values shadow' i ↔ Passes ctx memory uses count values shadow i := by
  unfold Passes
  rw [same.unaddressable_reached]

theorem unaddressable_none (shadow : Shadow) (address : Nat) :
    unaddressable ctx shadow address 0 = ∅ :=
  unaddressable_empty fun _ _ low high => absurd high (Nat.not_lt_of_le low)

theorem range_settles {shadow shadow' : Shadow} {address n : Nat}
    (passed : range ctx shadow address n = .ok shadow') : Settles ctx shadow shadow' := by
  unfold range at passed
  split at passed
  · cases passed
    exact .refl ctx _
  · have same := (firstUnaddressable_spec ctx shadow address n).1
    split at passed
    · rename_i found
      cases passed
      rw [found] at same
      exact same
    · cases passed

theorem checkRange_spec (ctx : Context) (shadow : Shadow) (address n : Nat) :
    match checkRange ctx shadow address n with
    | .ok shadow' =>
        Settles ctx shadow shadow' ∧ unaddressable ctx shadow (reached ctx shadow address) n = ∅
    | .error _ => unaddressable ctx shadow (reached ctx shadow address) n ≠ ∅ := by
  unfold checkRange
  by_cases none : n = 0
  · rw [if_pos none, none]
    exact ⟨.refl ctx _, unaddressable_none _ _⟩
  rw [if_neg none]
  by_cases quick : quickOk shadow address n = true
  · rw [if_pos quick]
    refine ⟨.refl ctx _, fast_sound ctx ?_⟩
    rw [quick, Bool.true_or]
  rw [if_neg quick]
  have passes := range_passes ctx shadow address n
  cases ranged : range ctx shadow address n with
  | ok shadow' =>
      rw [ranged] at passes
      exact ⟨range_settles ranged, passes.mp rfl⟩
  | error report =>
      rw [ranged] at passes
      intro empty
      cases passes.mpr empty

theorem checkArgument_spec (ctx : Context) (memory : Memory) (uses : Nat → FormatUse) (count : Nat)
    (values : Nat → BitVec 64) (shadow : Shadow) (i : Nat) :
    match checkArgument ctx memory uses count values shadow i with
    | .ok shadow' => Settles ctx shadow shadow' ∧ Passes ctx memory uses count values shadow i
    | .error _ => ¬ Passes ctx memory uses count values shadow i := by
  unfold checkArgument Passes extent
  cases (uses i).kind with
  | string =>
      dsimp only
      generalize (if precisionOf uses count values i < 0 then 0xFFFFFFFFFFFFFFFF
        else (precisionOf uses count values i).toNat) = max
      have spec := strlen_spec ctx shadow memory (values i).toNat max true
      generalize strlen ctx shadow memory (values i).toNat max true = answer at spec
      rcases answer with report | ⟨length, shadow'⟩
      · rcases spec with ⟨-, accepted⟩ | ⟨nonzero, bad⟩
        · cases accepted
        · dsimp only
          rw [if_neg nonzero]
          exact bad
      · obtain ⟨same, ⟨null, -⟩ | ⟨nonzero, -, empty⟩⟩ := spec
        · refine ⟨same, ?_⟩
          rw [if_pos null]
          exact unaddressable_none _ _
        · refine ⟨same, ?_⟩
          rw [if_neg nonzero]
          exact empty
  | target => exact checkRange_spec ctx shadow _ _
  | none | int | long | longLong | double | longDouble | pointer =>
      exact ⟨.refl ctx _, unaddressable_none _ _⟩

theorem checkArgument_checks (shadow : Shadow) (i : Nat) :
    Checks (¬ Passes ctx memory uses count values shadow i) (Settles ctx shadow)
      (checkArgument ctx memory uses count values shadow i) := by
  have spec := checkArgument_spec ctx memory uses count values shadow i
  cases checked : checkArgument ctx memory uses count values shadow i with
  | error report =>
      rw [checked] at spec
      exact .stops report spec
  | ok shadow' =>
      rw [checked] at spec
      exact .passes shadow' spec.1 (not_not_intro spec.2)

theorem checkArguments_ok (is : List Nat) (shadow : Shadow) :
    (∃ shadow', is.foldlM (checkArgument ctx memory uses count values) shadow = .ok shadow') ↔
      ∀ i ∈ is, Passes ctx memory uses count values shadow i := by
  have checks := Checks.foldlM (fun shadow i => ¬ Passes ctx memory uses count values shadow i)
    (Settles ctx) (.refl ctx) (fun _ _ _ => .trans)
    (fun _ _ i same => not_congr (Settles.passes same i)) checkArgument_checks is shadow
  rw [checks.returns_iff]
  push Not
  exact Iff.rfl

end Checks

theorem checkFormat_ok (ctx : Context) (shadow : Shadow) (memory : Memory) (format : List Char)
    (arguments : List Argument) :
    (∃ shadow', checkFormat ctx shadow memory (some format) arguments = .ok shadow') ↔
      ∀ i, i < walked (scanFormat .start format).uses (scanFormat .start format).count →
        Passes ctx memory (scanFormat .start format).uses
          (walked (scanFormat .start format).uses (scanFormat .start format).count)
          (valueAt (scanFormat .start format).uses arguments) shadow i := by
  refine Iff.trans (checkArguments_ok _ shadow) ?_
  exact forall_congr' fun i => by rw [List.mem_range]

/-! ## What the scan keeps -/

def Reading.kind (r : Reading) : ArgumentKind :=
  match r.role with
  | .amount => .int
  | .convert letter modifier _ => kindOf modifier.code letter.char

theorem Reading.kind_ne_none (r : Reading) : r.kind ≠ .none := by
  obtain ⟨index, _ | ⟨letter, modifier, precision⟩⟩ := r
  · exact nofun
  · exact kindOf_ne_none modifier letter

/-- Whether the argument is a conversion's own. -/
def Reading.converts (r : Reading) : Bool :=
  match r.role with
  | .amount => false
  | .convert _ _ _ => true

/-- The first reading of an argument: it gives the kind kept. -/
def firstAt (rs : List Reading) (index : Nat) : Option Reading :=
  rs.find? fun r => r.index = index

/-- The last conversion of an argument: it gives the precision kept, and the bytes. -/
def lastAt (rs : List Reading) (index : Nat) : Option Reading :=
  rs.reverse.find? fun r => decide (r.index = index) && r.converts

/-- What is kept of the conversion `r` besides its kind. -/
def Reading.Kept (r : Reading) (use : FormatUse) : Prop :=
  match r.role with
  | .amount => True
  | .convert _ modifier precision =>
      use.precision = precision.kept.1 ∧ use.precisionArgument = precision.kept.2 ∧
        use.bytes = bytesOf modifier.code

/-- The state after the readings `rs`. -/
structure Holds (rs : List Reading) (s : Scan) : Prop where
  kind : ∀ k, (s.uses k).kind = (firstAt rs (k + 1)).elim .none Reading.kind
  kept : ∀ k r, lastAt rs (k + 1) = some r → r.Kept (s.uses k)
  count_le : ∀ r ∈ rs, r.index ≤ s.count
  count_mem : s.count = 0 ∨ ∃ r ∈ rs, r.index = s.count

namespace Scan

theorem record_other (s : Scan) (r : Reading) {k : Nat} (other : k ≠ r.index - 1) :
    (s.record r).uses k = s.uses k := by
  obtain ⟨index, _ | ⟨letter, modifier, precision⟩⟩ := r
  · exact Function.update_of_ne other _ _
  · exact (Function.update_of_ne other _ _).trans (Function.update_of_ne other _ _)

theorem named_self (s : Scan) (index : Nat) (kind : ArgumentKind) :
    (s.named index kind).uses (index - 1) =
      { s.uses (index - 1) with
        kind := if (s.uses (index - 1)).kind = .none then kind else (s.uses (index - 1)).kind } :=
  Function.update_self _ _ _

theorem record_convert (s : Scan) (index : Nat) (l : Letter) (m : Modifier) (p : Precision) :
    (s.record ⟨index, .convert l m p⟩).uses (index - 1) =
      ⟨if (s.uses (index - 1)).kind = .none then kindOf m.code l.char
        else (s.uses (index - 1)).kind, p.kept.1, p.kept.2, bytesOf m.code⟩ := by
  refine (Function.update_self _ _ _).trans ?_
  rw [named_self]

theorem record_kind (s : Scan) (r : Reading) :
    ((s.record r).uses (r.index - 1)).kind =
      if (s.uses (r.index - 1)).kind = .none then r.kind else (s.uses (r.index - 1)).kind := by
  obtain ⟨index, _ | ⟨letter, modifier, precision⟩⟩ := r
  · exact congrArg FormatUse.kind (s.named_self index .int)
  · exact congrArg FormatUse.kind (s.record_convert index letter modifier precision)

theorem record_kept (s : Scan) {r : Reading} (converts : r.converts = true) :
    r.Kept ((s.record r).uses (r.index - 1)) := by
  obtain ⟨index, _ | ⟨letter, modifier, precision⟩⟩ := r
  · cases converts
  · change Reading.Kept _ ((s.record ⟨index, _⟩).uses (index - 1))
    rw [record_convert]
    exact ⟨rfl, rfl, rfl⟩

/-- A star changes no precision. -/
theorem record_star (s : Scan) {r : Reading} (star : r.converts = false) {q : Reading} {k : Nat}
    (kept : q.Kept (s.uses k)) : q.Kept ((s.record r).uses k) := by
  by_cases other : k = r.index - 1
  · subst other
    obtain ⟨index, _ | ⟨letter, modifier, precision⟩⟩ := r
    · change q.Kept ((s.named index .int).uses (index - 1))
      rw [named_self]
      exact kept
    · cases star
  · rw [record_other s r other]
    exact kept

theorem record_count (s : Scan) (r : Reading) :
    (s.record r).count = if s.count < r.index then r.index else s.count := by
  obtain ⟨index, _ | ⟨letter, modifier, precision⟩⟩ := r <;> rfl

theorem holds (rs : List Reading) (positive : ∀ r ∈ rs, 1 ≤ r.index) :
    Holds rs (rs.foldl record .start) := by
  induction rs using List.reverseRecOn with
  | nil => exact ⟨fun _ => rfl, nofun, nofun, .inl rfl⟩
  | append_singleton rs r inductionHypothesis =>
      have holds := inductionHypothesis fun q mem => positive q (List.mem_append_left _ mem)
      have own := positive r (List.mem_append_right _ (List.mem_singleton_self r))
      rw [List.foldl_append, List.foldl_cons, List.foldl_nil]
      generalize rs.foldl record .start = s at holds
      constructor
      case kind =>
        intro k
        have before := holds.kind k
        unfold firstAt at *
        rw [List.find?_append]
        by_cases other : k = r.index - 1
        · have here : r.index = k + 1 := by omega
          subst other
          rw [record_kind, before]
          cases first : rs.find? fun q => q.index = r.index - 1 + 1 with
          | none =>
              rw [Option.elim_none, if_pos rfl, Option.none_or,
                List.find?_cons_of_pos (by rw [decide_eq_true_eq]; exact here)]
              rfl
          | some q =>
              rw [Option.elim_some, if_neg q.kind_ne_none]
              rfl
        · rw [record_other s r other, before]
          have elsewhere : ¬ r.index = k + 1 := by omega
          rw [List.find?_cons_of_neg (by rw [decide_eq_true_eq]; exact elsewhere), List.find?_nil,
            Option.or_none]
      case kept =>
        intro k q last
        unfold lastAt at last
        rw [List.reverse_append, List.reverse_singleton, List.singleton_append] at last
        by_cases converts : r.index = k + 1 ∧ r.converts = true
        · rw [List.find?_cons_of_pos (by rw [decide_eq_true converts.1, converts.2]; rfl)] at last
          cases last
          have kept := s.record_kept converts.2
          rwa [converts.1, Nat.add_sub_cancel] at kept
        · rw [List.find?_cons_of_neg (by
            rw [Bool.and_eq_true, decide_eq_true_eq]; exact converts)] at last
          have kept := holds.kept k q last
          by_cases other : k = r.index - 1
          · have star : r.converts = false := by
              rw [← Bool.not_eq_true]
              exact fun yes => converts ⟨by omega, yes⟩
            exact s.record_star star kept
          · rw [record_other s r other]
            exact kept
      case count_le =>
        intro q mem
        rw [record_count]
        rcases List.mem_append.mp mem with old | new
        · have below := holds.count_le q old
          split <;> omega
        · rw [List.mem_singleton] at new
          subst new
          split <;> omega
      case count_mem =>
        rw [record_count]
        right
        split
        · exact ⟨r, List.mem_append_right _ (List.mem_singleton_self r), rfl⟩
        · rename_i notBelow
          obtain none | ⟨q, mem, same⟩ := holds.count_mem
          · omega
          · exact ⟨q, List.mem_append_left _ mem, same⟩

end Scan

/-! ## A call -/

/-- The arguments give each reading one of its type. -/
def Fits (rs : List Reading) (arguments : List Argument) : Prop :=
  ∀ r ∈ rs, (arguments[r.index - 1]?).map Argument.type = some r.type

/-- The arguments up to `index` are all named. -/
def Reached (rs : List Reading) (index : Nat) : Prop :=
  ∀ i, 1 ≤ i → i ≤ index → ∃ q ∈ rs, q.index = i

def intAt (arguments : List Argument) (index : Nat) : Int :=
  match arguments[index - 1]? with
  | some (.int value) => value.toInt
  | _ => 0

def pointerAt (arguments : List Argument) (index : Nat) : Nat :=
  match arguments[index - 1]? with
  | some (.pointer _ value) => value.toNat
  | _ => 0

/-- The bytes a precision allows; a negative one is none. -/
def Precision.limit (arguments : List Argument) : Precision → Option Nat
  | absent => none
  | number value => some value
  | argument index =>
      if intAt arguments index < 0 then none else some (intAt arguments index).toNat

/-- Byte `k` from its pointer on is read through a `%s` or stored through a `%n`. -/
def Reading.Touches (memory : Memory) (arguments : List Argument) (r : Reading) (k : Nat) : Prop :=
  match r.role with
  | .convert .string .none precision =>
      pointerAt arguments r.index ≠ 0 ∧ (∀ n ∈ precision.limit arguments, k < n) ∧
        ∀ j, j < k → memory (pointerAt arguments r.index + j) ≠ 0
  | .convert .target modifier _ => k < modifier.bytes
  | _ => False

/-- No byte touched is unaddressable. -/
def Safe (ctx : Context) (shadow : Shadow) (memory : Memory) (rs : List Reading)
    (arguments : List Argument) : Prop :=
  ∀ r ∈ rs, ∀ k, r.Touches memory arguments k → shadow.Ready →
    hardware ctx (pointerAt arguments r.index) + k < 2 ^ shadow.bits →
      Addressable ctx shadow (hardware ctx (pointerAt arguments r.index) + k)

/-- A precision as kept that reaches as far as another, whatever the arguments:
one held by an argument that is not walked bounds nothing. -/
def Precision.Covers (rs : List Reading) : Precision → Precision → Prop
  | absent, _ => True
  | number kept, number value => value ≤ if kept ≤ 100000 then kept else 0
  | argument kept, own => own = .argument kept ∨ ¬ Reached rs kept
  | _, _ => False

/-- With the readings `noted`, each argument of a `%n` is walked, and each
argument of a `%s` that reads anything: it is noted as a `%s` first, and its last
conversion noted has a precision that covers the `%s`'s own. -/
def Covering (noted rs : List Reading) : Prop :=
  ∀ r ∈ rs,
    (∀ modifier precision, r.role = .convert .target modifier precision →
      Reached noted r.index) ∧
    ∀ precision, r.role = .convert .string .none precision → precision ≠ .number 0 →
      Reached noted r.index ∧
      (∃ first own, firstAt noted r.index = some first ∧ first.role = .convert .string .none own) ∧
        ∃ last letter modifier own, lastAt noted r.index = some last ∧
          last.role = .convert letter modifier own ∧ own.Covers noted precision

/-! ## The arguments as the walk reads them -/

/-- The kind of a conversion. -/
def Letter.kind : Letter → Modifier → ArgumentKind
  | integer _, modifier | character, modifier =>
      match modifier with
      | .none | .char | .short => .int
      | .longLong => .longLong
      | _ => .long
  | floating _, modifier => if modifier = .longDouble then .longDouble else .double
  | pointer, _ => .pointer
  | string, modifier => if modifier = .long then .pointer else .string
  | target, _ => .target

theorem kindOf_eq (m : Modifier) (l : Letter) : kindOf m.code l.char = l.kind m := by
  cases l with
  | integer which => revert which; cases m <;> decide
  | floating which => revert which; cases m <;> decide
  | character | pointer | string | target => cases m <;> decide

theorem bytesOf_eq (m : Modifier) : bytesOf m.code = m.bytes := by
  cases m <;> rfl

theorem Letter.kind_of_pointer {l : Letter} {m : Modifier} {pointee : Pointee}
    (type : l.type m = .pointer pointee) :
    l.kind m = .pointer ∨ l.kind m = .string ∨ l.kind m = .target := by
  cases l with
  | integer which => cases m <;> cases type
  | character => cases type
  | floating which => cases m <;> cases type
  | pointer => exact .inl rfl
  | string => cases m <;> simp [kind]
  | target => exact .inr (.inr rfl)

theorem Letter.kind_of_int {l : Letter} {m : Modifier} (type : l.type m = .int) :
    l.kind m = .int ∨ l.kind m = .long ∨ l.kind m = .longLong := by
  cases l with
  | integer which => cases m <;> first | exact .inl rfl | cases type
  | character =>
      cases m <;> first | exact .inl rfl | exact .inr (.inl rfl) | exact .inr (.inr rfl)
  | floating which => cases m <;> cases type
  | pointer | string | target => cases type

theorem vaArg_pointer {r : Reading} {pointee : Pointee} (type : r.type = .pointer pointee)
    (value : BitVec 64) : vaArg r.kind (.pointer pointee value) = value := by
  obtain ⟨index, _ | ⟨l, m, p⟩⟩ := r
  · cases type
  · change vaArg (kindOf m.code l.char) _ = value
    rw [kindOf_eq]
    rcases Letter.kind_of_pointer type with kind | kind | kind <;> rw [kind] <;> rfl

theorem vaArg_int {r : Reading} (type : r.type = .int) (value : BitVec 32) :
    (vaArg r.kind (.int value)).setWidth 32 = value := by
  have slot : (value.signExtend 64).setWidth 32 = value := by
    apply BitVec.eq_of_getLsbD_eq
    intro i inside
    rw [BitVec.getLsbD_setWidth, BitVec.getLsbD_signExtend, if_pos inside,
      decide_eq_true inside, decide_eq_true (show i < 64 by omega), Bool.true_and, Bool.true_and]
  obtain ⟨index, _ | ⟨l, m, p⟩⟩ := r
  · exact slot
  · change (vaArg (kindOf m.code l.char) _).setWidth 32 = value
    rw [kindOf_eq]
    rcases Letter.kind_of_int type with kind | kind | kind <;> rw [kind] <;> exact slot

section Walk

variable {rs : List Reading} {s : Scan} {arguments : List Argument}

/-- The first reading of an argument that is read at all. -/
theorem exists_firstAt {r : Reading} (mem : r ∈ rs) :
    ∃ first ∈ rs, firstAt rs r.index = some first ∧ first.index = r.index := by
  cases found : firstAt rs r.index with
  | none => exact absurd (decide_eq_true rfl) (List.find?_eq_none.mp found r mem)
  | some first =>
      have same := List.find?_some found
      rw [decide_eq_true_eq] at same
      exact ⟨first, List.mem_of_find?_eq_some found, rfl, same⟩

theorem exists_lastAt {r : Reading} (mem : r ∈ rs) (converts : r.converts = true) :
    ∃ last ∈ rs, lastAt rs r.index = some last ∧ last.index = r.index ∧ last.converts = true := by
  cases found : lastAt rs r.index with
  | none =>
      refine absurd ?_ (List.find?_eq_none.mp found r (List.mem_reverse.mpr mem))
      rw [converts, decide_eq_true rfl]
      rfl
  | some last =>
      have both := List.find?_some found
      rw [Bool.and_eq_true, decide_eq_true_eq] at both
      exact ⟨last, List.mem_reverse.mp (List.mem_of_find?_eq_some found), rfl, both⟩

theorem Fits.same_type (fits : Fits rs arguments) {q r : Reading} (mem : q ∈ rs) (mem' : r ∈ rs)
    (same : q.index = r.index) : q.type = r.type := by
  have first := fits q mem
  rw [same, fits r mem'] at first
  exact (Option.some.inj first).symm

theorem Fits.mono {rs' : List Reading} (fits : Fits rs' arguments) (fewer : ∀ r ∈ rs, r ∈ rs') :
    Fits rs arguments := fun r mem => fits r (fewer r mem)

theorem Holds.kind_none_iff (holds : Holds rs s) (k : Nat) :
    (s.uses k).kind = .none ↔ ¬ ∃ q ∈ rs, q.index = k + 1 := by
  rw [holds.kind]
  constructor
  · rintro none ⟨q, mem, same⟩
    obtain ⟨first, -, found, -⟩ := exists_firstAt mem
    rw [← same, found] at none
    exact first.kind_ne_none none
  · intro unnamed
    cases found : firstAt rs (k + 1) with
    | none => rfl
    | some first =>
        have same := List.find?_some found
        rw [decide_eq_true_eq] at same
        exact absurd ⟨first, List.mem_of_find?_eq_some found, same⟩ unnamed

/-- The arguments walked are those before the first that is not named. -/
theorem Holds.le_walked (holds : Holds rs s) {index : Nat} :
    index ≤ walked s.uses s.count ↔ Reached rs index := by
  have named : ∀ k, (s.uses k).kind ≠ .none ↔ ∃ q ∈ rs, q.index = k + 1 := fun k =>
    (not_congr (holds.kind_none_iff k)).trans not_not
  unfold Format.walked
  cases found : (List.range s.count).find? fun i => (s.uses i).kind = .none with
  | none =>
      have all := List.find?_eq_none.mp found
      change index ≤ s.count ↔ _
      constructor
      · intro inside i low high
        have read := all (i - 1) (List.mem_range.mpr (by omega))
        rw [decide_eq_true_eq] at read
        have q := (named (i - 1)).mp read
        rwa [Nat.sub_add_cancel low] at q
      · intro reached
        cases index with
        | zero => exact Nat.zero_le _
        | succ index =>
            obtain ⟨q, mem, same⟩ := reached (index + 1) (Nat.succ_pos index) (Nat.le_refl _)
            have below := holds.count_le q mem
            omega
  | some stop =>
      obtain ⟨unread, inside, before⟩ := List.find?_range_eq_some.mp found
      rw [decide_eq_true_eq] at unread
      change index ≤ stop ↔ _
      constructor
      · intro early i low high
        have read := before (i - 1) (by omega)
        rw [Bool.not_eq_true', decide_eq_false_iff_not] at read
        have q := (named (i - 1)).mp read
        rwa [Nat.sub_add_cancel low] at q
      · intro reached
        by_contra late
        exact (holds.kind_none_iff stop).mp unread (reached (stop + 1) (by omega) (by omega))

theorem Holds.valueAt_pointer (holds : Holds rs s) (fits : Fits rs arguments) {r : Reading}
    (mem : r ∈ rs) (positive : 1 ≤ r.index) {pointee : Pointee} (type : r.type = .pointer pointee) :
    (valueAt s.uses arguments (r.index - 1)).toNat = pointerAt arguments r.index := by
  obtain ⟨first, mem', found, same⟩ := exists_firstAt mem
  have kind := holds.kind (r.index - 1)
  rw [Nat.sub_add_cancel positive, found, Option.elim_some] at kind
  have fit := fits r mem
  unfold valueAt pointerAt
  rw [kind]
  cases given : arguments[r.index - 1]? with
  | none =>
      rw [given] at fit
      cases fit
  | some argument =>
      rw [given, Option.map_some, Option.some.injEq, type] at fit
      cases argument with
      | pointer to' value =>
          cases fit
          dsimp only
          rw [vaArg_pointer ((fits.same_type mem' mem same).trans type)]
      | int value | long value | double | longDouble => cases fit

theorem Holds.valueAt_int (holds : Holds rs s) (fits : Fits rs arguments) {r : Reading}
    (mem : r ∈ rs) (positive : 1 ≤ r.index) (type : r.type = .int) :
    ((valueAt s.uses arguments (r.index - 1)).setWidth 32).toInt = intAt arguments r.index := by
  obtain ⟨first, mem', found, same⟩ := exists_firstAt mem
  have kind := holds.kind (r.index - 1)
  rw [Nat.sub_add_cancel positive, found, Option.elim_some] at kind
  have fit := fits r mem
  unfold valueAt intAt
  rw [kind]
  cases given : arguments[r.index - 1]? with
  | none =>
      rw [given] at fit
      cases fit
  | some argument =>
      rw [given, Option.map_some, Option.some.injEq, type] at fit
      cases argument with
      | int value =>
          dsimp only
          rw [vaArg_int ((fits.same_type mem' mem same).trans type)]
      | pointer to' value => cases fit
      | long value | double | longDouble => cases fit

end Walk

/-! ## The format -/

theorem scan_holds {pieces : List Piece} (known : Known pieces) :
    Holds (followed pieces) (scanFormat .start (text pieces)) := by
  obtain ⟨next, scanned⟩ := scanFormat_text (s := .start) known
  have holds := Scan.holds (followed pieces) fun r mem =>
    (known r (followedFrom_subset r mem)).1
  rw [scanned]
  exact ⟨holds.kind, holds.kept, holds.count_le, holds.count_mem⟩

theorem Amount.index_of_precision {a : Amount} {next i : Nat}
    (held : a.precision next = .argument i) : i ∈ (a.index next).1 := by
  cases a with
  | absent | number digits => cases held
  | next | argument digits =>
      cases held
      rfl

/-- What a reading of a conversion is: a star's, or the conversion's own. -/
theorem Conversion.mem_readings {c : Conversion} {next : Nat} {r : Reading} {l : Letter}
    {m : Modifier} {p : Precision} (mem : r ∈ (c.readings next).1) (role : r.role = .convert l m p) :
    l.Takes m ∧ ∀ i, p = .argument i → ⟨i, .amount⟩ ∈ (c.readings next).1 := by
  unfold Conversion.readings at *
  dsimp only at *
  rcases List.mem_append.mp mem with width | own
  · obtain ⟨_, -, rfl⟩ := List.mem_map.mp width
    cases role
  rcases List.mem_append.mp own with precision | own
  · obtain ⟨_, -, rfl⟩ := List.mem_map.mp precision
    cases role
  rw [List.mem_singleton] at own
  rw [own] at role
  obtain ⟨rfl, rfl, held⟩ := Role.convert.inj role
  refine ⟨c.takes, fun i same => ?_⟩
  rw [same] at held
  refine List.mem_append_right _ (List.mem_append_left _ (List.mem_map.mpr ⟨i, ?_, rfl⟩))
  exact Option.mem_toList.mpr (Amount.index_of_precision held)

theorem exists_conversion {pieces : List Piece} {next : Nat} {r : Reading}
    (mem : r ∈ readingsFrom next pieces) :
    ∃ (c : Conversion) (from' : Nat), r ∈ (c.readings from').1 ∧
      ∀ q ∈ (c.readings from').1, q ∈ readingsFrom next pieces := by
  induction pieces generalizing next with
  | nil => cases mem
  | cons piece pieces inductionHypothesis =>
      cases piece with
      | literal c plain => exact inductionHypothesis mem
      | percent => exact inductionHypothesis mem
      | conversion c =>
          rcases List.mem_append.mp mem with own | later
          · exact ⟨c, next, own, fun q mem' => List.mem_append_left _ mem'⟩
          · obtain ⟨c', from', inside, all⟩ := inductionHypothesis later
            exact ⟨c', from', inside, fun q mem' => List.mem_append_right _ (all q mem')⟩

/-- A precision that an argument holds is read from it. -/
theorem exists_star {pieces : List Piece} {r : Reading} {l : Letter} {m : Modifier} {i : Nat}
    (mem : r ∈ readings pieces) (role : r.role = .convert l m (.argument i)) :
    ⟨i, .amount⟩ ∈ readings pieces := by
  obtain ⟨c, next, inside, all⟩ := exists_conversion mem
  exact all _ ((Conversion.mem_readings inside role).2 i rfl)

theorem exists_star_notedFrom {pieces : List Piece} {next : Nat} {r : Reading} {l : Letter}
    {m : Modifier} {i : Nat} (mem : r ∈ followedFrom next pieces)
    (role : r.role = .convert l m (.argument i)) : ⟨i, .amount⟩ ∈ followedFrom next pieces := by
  induction pieces generalizing next with
  | nil => cases mem
  | cons piece pieces inductionHypothesis =>
      cases piece with
      | literal c plain => exact inductionHypothesis mem
      | percent => exact inductionHypothesis mem
      | conversion c =>
          by_cases whole : c.Followed
          · rw [followedFrom, if_pos whole] at *
            rcases List.mem_append.mp mem with own | later
            · exact List.mem_append_left _ ((Conversion.mem_readings own role).2 i rfl)
            · exact List.mem_append_right _ (inductionHypothesis later)
          · rw [followedFrom, if_neg whole] at mem
            obtain ⟨_, -, rfl⟩ := List.mem_map.mp mem
            cases role

theorem exists_star_noted {pieces : List Piece} {r : Reading} {l : Letter} {m : Modifier} {i : Nat}
    (mem : r ∈ followed pieces) (role : r.role = .convert l m (.argument i)) :
    ⟨i, .amount⟩ ∈ followed pieces :=
  exists_star_notedFrom mem role

theorem lt_scanned {memory : Memory} {s max k : Nat} (below : k < max)
    (before : ∀ j, j < k → memory (s + j) ≠ 0) : k < scanned memory s max := by
  obtain ⟨-, stops⟩ := strnlen_spec memory s max
  have longer : k ≤ strnlen memory s max := by
    by_contra less
    have small : strnlen memory s max < k := Nat.lt_of_not_le less
    exact before _ small (stops (Nat.lt_trans small below))
  unfold scanned
  dsimp only
  split <;> omega

/-- What a scan of an argument is bounded by. -/
def maxOf (precision : Int) : Nat := if precision < 0 then 0xFFFFFFFFFFFFFFFF else precision.toNat

/-- What a kept precision comes to when the first `count` arguments are walked. -/
def Precision.value (arguments : List Argument) (count : Nat) : Precision → Int
  | absent => -1
  | number value => if value ≤ 100000 then value else 0
  | argument index => if index ≤ count then intAt arguments index else -1

section Arguments

variable {pieces : List Piece} {s : Scan} {arguments : List Argument}

theorem precisionOf_kept (holds : Holds (followed pieces) s) (known : Known pieces)
    (fits : Fits (readings pieces) arguments) (count : Nat) {i : Nat} {kept : Precision}
    (precision : (s.uses i).precision = kept.kept.1)
    (argument : (s.uses i).precisionArgument = kept.kept.2)
    (held : ∀ j, kept = .argument j → ⟨j, .amount⟩ ∈ followed pieces) :
    precisionOf s.uses count (valueAt s.uses arguments) i = kept.value arguments count := by
  unfold precisionOf
  rw [precision, argument]
  cases kept with
  | absent | number value => exact if_neg (Nat.lt_irrefl 0)
  | argument j =>
      have star := held j rfl
      have positive := (known _ (followedFrom_subset _ star)).1
      have value := holds.valueAt_int (fits.mono followedFrom_subset) star positive rfl
      refine (if_pos positive).trans ?_
      change (if j ≤ count then ((valueAt s.uses arguments (j - 1)).setWidth 32).toInt else -1) =
        if j ≤ count then intAt arguments j else -1
      rw [← value]

theorem Precision.Covers.lt_max {noted : List Reading} {kept own : Precision}
    (covers : kept.Covers noted own) {count : Nat} (walked : ∀ j, j ≤ count ↔ Reached noted j)
    {k : Nat} (allowed : ∀ n ∈ own.limit arguments, k < n) (small : k < 0xFFFFFFFFFFFFFFFF) :
    k < maxOf (kept.value arguments count) := by
  cases kept with
  | absent => exact small
  | number kept =>
      cases own with
      | absent | argument j => cases covers
      | number value =>
          have below := allowed value rfl
          change value ≤ (if kept ≤ 100000 then kept else 0) at covers
          change k < maxOf (if kept ≤ 100000 then (kept : Int) else 0)
          unfold maxOf
          split at covers
          · rename_i whole
            rw [if_pos whole, if_neg (by omega)]
            omega
          · omega
  | argument j =>
      change k < maxOf (if j ≤ count then intAt arguments j else -1)
      by_cases reached : j ≤ count
      · obtain rfl := covers.resolve_right (not_not.mpr ((walked j).mp reached))
        rw [if_pos reached]
        unfold maxOf
        split
        · exact small
        · rename_i notNegative
          exact allowed (intAt arguments j).toNat (if_neg notNegative)
      · rw [if_neg reached]
        exact small

/-- The use kept of an argument, from its last conversion. -/
theorem Holds.kept_of_last {noted : List Reading} (holds : Holds noted s) {r last : Reading}
    (positive : 1 ≤ r.index) (found : lastAt noted r.index = some last)
    {l : Letter} {m : Modifier} {p : Precision} (role : last.role = .convert l m p) :
    (s.uses (r.index - 1)).precision = p.kept.1 ∧
      (s.uses (r.index - 1)).precisionArgument = p.kept.2 ∧
        (s.uses (r.index - 1)).bytes = bytesOf m.code := by
  have kept := holds.kept (r.index - 1) last (by rw [Nat.sub_add_cancel positive]; exact found)
  unfold Reading.Kept at kept
  rw [role] at kept
  exact kept

theorem Holds.kind_of_first {noted : List Reading} (holds : Holds noted s) {r first : Reading}
    (positive : 1 ≤ r.index) (found : firstAt noted r.index = some first) :
    (s.uses (r.index - 1)).kind = first.kind := by
  have kind := holds.kind (r.index - 1)
  rw [Nat.sub_add_cancel positive, found] at kind
  exact kind

/-- The pointer of an argument that is named. -/
theorem Holds.pointer_of_reached (holds : Holds (followed pieces) s) (known : Known pieces)
    (fits : Fits (readings pieces) arguments) {r : Reading} (mem : r ∈ readings pieces)
    (reached : Reached (followed pieces) r.index) {pointee : Pointee}
    (type : r.type = .pointer pointee) :
    (valueAt s.uses arguments (r.index - 1)).toNat = pointerAt arguments r.index := by
  obtain ⟨q, noted, same⟩ := reached r.index (known r mem).1 (Nat.le_refl _)
  have mem' := followedFrom_subset q noted
  have value := holds.valueAt_pointer (fits.mono followedFrom_subset) noted (known q mem').1
    ((fits.same_type mem' mem same).trans type)
  rwa [same] at value

end Arguments

theorem target_of_type {r : Reading} {m : Modifier} (type : r.type = .pointer (.number m)) :
    ∃ p, r.role = .convert .target m p := by
  obtain ⟨index, _ | ⟨l, m', p⟩⟩ := r
  · cases type
  · change l.type m' = .pointer (.number m) at type
    cases l with
    | target =>
        cases type
        exact ⟨p, rfl⟩
    | integer which => cases m' <;> cases type
    | character => cases type
    | floating which => cases m' <;> cases type
    | pointer => cases type
    | string => cases m' <;> cases type

theorem safe_of_covering {pieces : List Piece} (known : Known pieces)
    (covering : Covering (followed pieces) (readings pieces)) {ctx : Context} {shadow : Shadow}
    {memory : Memory} {arguments : List Argument} (fits : Fits (readings pieces) arguments)
    (passed : ∃ shadow', checkFormat ctx shadow memory (some (text pieces)) arguments = .ok shadow') :
    Safe ctx shadow memory (readings pieces) arguments := by
  have holds := scan_holds known
  rw [checkFormat_ok] at passed
  generalize scanFormat .start (text pieces) = s at holds passed
  intro r mem k touches ready inside
  obtain ⟨positive, -⟩ := known r mem
  have narrow : 2 ^ shadow.bits ≤ 2 ^ 56 := Nat.pow_le_pow_right (by decide) ready.bounds.2.2
  obtain ⟨targets, strings⟩ := covering r mem
  -- the check of the argument reaches the byte
  suffices reaches : Reached (followed pieces) r.index ∧
      (valueAt s.uses arguments (r.index - 1)).toNat = pointerAt arguments r.index ∧
        k < extent memory s.uses (walked s.uses s.count) (valueAt s.uses arguments)
          (r.index - 1) by
    have walked := holds.le_walked.mpr reaches.1
    have empty := passed (r.index - 1) (by omega)
    unfold Passes at empty
    rw [unaddressable_reached_empty ready, reaches.2.1] at empty
    exact empty _ ⟨by omega, by omega⟩ inside
  unfold Reading.Touches at touches
  split at touches
  · rename_i precision role
    obtain ⟨notNull, allowed, before⟩ := touches
    have type : r.type = .pointer .byte := by rw [Reading.type, role]; rfl
    have some : precision ≠ .number 0 := by
      rintro rfl
      exact absurd (allowed 0 rfl) (Nat.not_lt_zero k)
    obtain ⟨reached, ⟨first, own, found, firstRole⟩, last, l, m, kept, lastFound, lastRole, covers⟩ :=
      strings precision role some
    have pointer := holds.pointer_of_reached known fits mem reached type
    refine ⟨reached, pointer, ?_⟩
    have kind : (s.uses (r.index - 1)).kind = .string := by
      rw [holds.kind_of_first positive found, Reading.kind, firstRole]
      rfl
    obtain ⟨keptPrecision, keptArgument, -⟩ := holds.kept_of_last positive lastFound lastRole
    have value := precisionOf_kept holds known fits (walked s.uses s.count) keptPrecision
      keptArgument (by
        rintro j rfl
        have mem' := List.mem_reverse.mp (List.mem_of_find?_eq_some lastFound)
        exact exists_star_noted mem' lastRole)
    unfold extent
    rw [kind]
    dsimp only
    rw [value, pointer, if_neg notNull]
    exact lt_scanned (covers.lt_max (fun j => holds.le_walked) allowed (by omega)) before
  · -- the other readings of a target are of the same target
    rename_i m p role
    have type : r.type = .pointer (.number m) := by rw [Reading.type, role]; rfl
    have reached := targets m p role
    refine ⟨reached, holds.pointer_of_reached known fits mem reached type, ?_⟩
    obtain ⟨q, noted, same⟩ := reached r.index positive (Nat.le_refl _)
    have target : ∀ q ∈ followed pieces, q.index = r.index → ∃ p, q.role = .convert .target m p :=
      fun q noted same => target_of_type
        ((fits.same_type (followedFrom_subset q noted) mem same).trans type)
    obtain ⟨first, noted', found, same'⟩ := exists_firstAt noted
    rw [same] at found same'
    obtain ⟨first', firstRole⟩ := target first noted' same'
    obtain ⟨own, ownRole⟩ := target q noted same
    have converts : q.converts = true := by rw [Reading.converts, ownRole]
    obtain ⟨last, noted'', lastFound, same'', -⟩ := exists_lastAt noted converts
    rw [same] at lastFound same''
    obtain ⟨last', lastRole⟩ := target last noted'' same''
    have kind : (s.uses (r.index - 1)).kind = .target := by
      rw [holds.kind_of_first positive found, Reading.kind, firstRole]
      cases m <;> rfl
    obtain ⟨-, -, bytes⟩ := holds.kept_of_last positive lastFound lastRole
    unfold extent
    rw [kind]
    dsimp only
    rw [bytes, bytesOf_eq]
    exact touches
  · exact touches.elim

/-! ## A call that is not covered -/

/-- Strings of 2^32 bytes, one in each 2^40. -/
def strings : Memory := fun x => if x % 0x10000000000 = 0x100000000 then 0 else 1

/-- Arguments of the same types: pointers far apart, and integers as given. -/
def spread (v : Nat → BitVec 32) (arguments : List Argument) : List Argument :=
  arguments.mapIdx fun i argument =>
    match argument with
    | .int _ => .int (v (i + 1))
    | .pointer to' _ => .pointer to' (BitVec.ofNat 64 ((i + 1) * 0x10000000000))
    | other => other

section Spread

variable {rs : List Reading} {arguments : List Argument} (v : Nat → BitVec 32)

theorem Fits.spread (fits : Fits rs arguments) : Fits rs (spread v arguments) := by
  intro r mem
  have fit := fits r mem
  unfold Format.spread
  rw [List.getElem?_mapIdx, Option.map_map]
  rw [← fit]
  congr 1
  funext argument
  cases argument <;> rfl

theorem spread_pointerAt (fits : Fits rs arguments) {r : Reading} (mem : r ∈ rs)
    (bounds : 1 ≤ r.index ∧ r.index ≤ formatArguments) {pointee : Pointee}
    (type : r.type = .pointer pointee) :
    pointerAt (spread v arguments) r.index = r.index * 0x10000000000 := by
  have fit := fits r mem
  have small : r.index ≤ 64 := bounds.2
  unfold pointerAt Format.spread
  rw [List.getElem?_mapIdx]
  cases given : arguments[r.index - 1]? with
  | none =>
      rw [given] at fit
      cases fit
  | some argument =>
      rw [given, Option.map_some, Option.some.injEq, type] at fit
      cases argument with
      | pointer to' value =>
          rw [Option.map_some]
          dsimp only
          rw [BitVec.toNat_ofNat, Nat.sub_add_cancel bounds.1]
          omega
      | int value | long value | double | longDouble => cases fit

theorem spread_intAt (fits : Fits rs arguments) {r : Reading} (mem : r ∈ rs)
    (positive : 1 ≤ r.index) (type : r.type = .int) :
    intAt (spread v arguments) r.index = (v r.index).toInt := by
  have fit := fits r mem
  unfold intAt Format.spread
  rw [List.getElem?_mapIdx]
  cases given : arguments[r.index - 1]? with
  | none =>
      rw [given] at fit
      cases fit
  | some argument =>
      rw [given, Option.map_some, Option.some.injEq, type] at fit
      cases argument with
      | int value =>
          rw [Option.map_some]
          dsimp only
          rw [Nat.sub_add_cancel positive]
      | pointer to' value => cases fit
      | long value | double | longDouble => cases fit

end Spread

theorem scanned_strings (i max : Nat) :
    scanned strings (i * 0x10000000000) max ≤ 0x100000001 := by
  have short : strnlen strings (i * 0x10000000000) max ≤ 0x100000000 := by
    by_contra longer
    refine (strnlen_spec strings (i * 0x10000000000) max).1 0x100000000 (by omega) ?_
    unfold strings
    rw [if_pos (by omega)]
  unfold scanned
  dsimp only
  split
  · omega
  · have whole := strnlen_le strings (i * 0x10000000000) max
    omega

/-- A caller on its own stack, without tags. -/
def caller : Context := ⟨0, 0, 0, false, fun _ => ⟨false, false, 0, 0⟩, false⟩

theorem hardware_caller (address : Nat) : hardware caller address = address :=
  if_neg Bool.false_ne_true

theorem type_of_kind {r : Reading} (kind : r.kind = .string ∨ r.kind = .target) :
    (∃ pointee, r.type = .pointer pointee) ∧ r.converts = true := by
  obtain ⟨index, _ | ⟨l, m, p⟩⟩ := r
  · rcases kind with string | target
    · cases string
    · cases target
  · refine ⟨?_, rfl⟩
    change kindOf m.code l.char = .string ∨ kindOf m.code l.char = .target at kind
    rw [kindOf_eq] at kind
    cases l with
    | pointer => exact ⟨_, rfl⟩
    | string => exact ⟨_, rfl⟩
    | target => exact ⟨_, rfl⟩
    | integer which => cases m <;> rcases kind with string | target <;> contradiction
    | character => cases m <;> rcases kind with string | target <;> contradiction
    | floating which => cases m <;> rcases kind with string | target <;> contradiction

/-- What is checked of any argument lies within 2^33 of its own pointer. -/
theorem extent_spread {rs : List Reading} {s : Scan} {arguments : List Argument}
    (holds : Holds rs s) (fits : Fits rs arguments)
    (bounds : ∀ r ∈ rs, 1 ≤ r.index ∧ r.index ≤ formatArguments) (v : Nat → BitVec 32)
    (i count : Nat)
    (some : 0 < extent strings s.uses count (valueAt s.uses (spread v arguments)) i) :
    (valueAt s.uses (spread v arguments) i).toNat = (i + 1) * 0x10000000000 ∧
      extent strings s.uses count (valueAt s.uses (spread v arguments)) i ≤ 0x100000001 := by
  have kind := holds.kind i
  cases found : firstAt rs (i + 1) with
  | none =>
      rw [found, Option.elim_none] at kind
      unfold extent at some
      rw [kind] at some
      exact absurd some (Nat.lt_irrefl 0)
  | some q =>
      rw [found, Option.elim_some] at kind
      have mem : q ∈ rs := List.mem_of_find?_eq_some found
      have same := List.find?_some found
      rw [decide_eq_true_eq] at same
      have checked : q.kind = .string ∨ q.kind = .target := by
        unfold extent at some
        rw [kind] at some
        cases named : q.kind <;> rw [named] at some <;>
          first
          | exact .inl rfl
          | exact .inr rfl
          | exact absurd some (Nat.lt_irrefl 0)
      obtain ⟨⟨pointee, type⟩, converts⟩ := type_of_kind checked
      have pointer := spread_pointerAt v fits mem (bounds q mem) type
      have value := holds.valueAt_pointer (fits.spread v) mem (bounds q mem).1 type
      rw [pointer, same, Nat.add_sub_cancel] at value
      refine ⟨value, ?_⟩
      unfold extent
      rw [kind]
      rcases checked with string | target
      · rw [string]
        dsimp only
        rw [value, if_neg (by omega)]
        exact scanned_strings (i + 1) _
      · rw [target]
        dsimp only
        obtain ⟨last, -, lastFound, -, lastConverts⟩ := exists_lastAt mem converts
        rw [same] at lastFound
        have kept := holds.kept i last lastFound
        obtain ⟨index, _ | ⟨l, m, p⟩⟩ := last
        · cases lastConverts
        · rw [kept.2.2, bytesOf_eq]
          cases m <;> decide

/-- An argument of which byte `k` is touched, and only the bytes before it are checked. -/
theorem exists_unchecked {pieces : List Piece} (known : Known pieces) {r : Reading}
    (mem : r ∈ readings pieces) {pointee : Pointee} (type : r.type = .pointer pointee)
    {arguments : List Argument} (v : Nat → BitVec 32) (fits : Fits (readings pieces) arguments)
    {k : Nat} (short : k ≤ 100000) (touched : r.Touches strings (spread v arguments) k)
    (checked : Reached (followed pieces) r.index →
      extent strings (scanFormat .start (text pieces)).uses
        (walked (scanFormat .start (text pieces)).uses (scanFormat .start (text pieces)).count)
        (valueAt (scanFormat .start (text pieces)).uses (spread v arguments)) (r.index - 1) ≤ k) :
    (∃ shadow', checkFormat caller (stopsAt (r.index * 0x10000000000 + k)) strings
        (some (text pieces)) (spread v arguments) = .ok shadow') ∧
      ¬ Safe caller (stopsAt (r.index * 0x10000000000 + k)) strings (readings pieces)
        (spread v arguments) := by
  have holds := scan_holds known
  have fits' := fits.spread v
  have bounds := known r mem
  have positive := bounds.1
  have small : r.index ≤ 64 := bounds.2
  have pointer := spread_pointerAt v fits mem bounds type
  constructor
  · rw [checkFormat_ok]
    generalize scanFormat .start (text pieces) = s at *
    intro i inWalk
    unfold Passes
    rw [unaddressable_reached_empty (stopsAt_ready _)]
    intro c decided inside
    have inside' : c < 2 ^ 56 := inside
    obtain ⟨low, high⟩ := decided
    rw [hardware_caller] at low high
    rw [stopsAt_addressable caller inside']
    rintro ⟨granule, notBefore⟩
    by_cases own : i = r.index - 1
    · -- the bytes checked of it end before the byte
      subst own
      have reached := holds.le_walked.mp (show r.index ≤ walked s.uses s.count by omega)
      have value := holds.pointer_of_reached known fits' mem reached type
      have few := checked reached
      omega
    · obtain ⟨value, far⟩ := extent_spread holds (fits.mono followedFrom_subset)
        (fun q noted => known q (followedFrom_subset q noted)) v i (walked s.uses s.count) (by omega)
      omega
  · intro safe
    have ready := stopsAt_ready (r.index * 0x10000000000 + k)
    have inside : r.index * 0x10000000000 + k < 2 ^ 56 := by omega
    have good := safe r mem k touched ready (by rw [hardware_caller, pointer]; exact inside)
    rw [hardware_caller, pointer, stopsAt_addressable caller inside] at good
    exact good ⟨rfl, Nat.le_refl _⟩

/-- A string that a precision lets through past `k` bytes. -/
theorem touches_strings {pieces : List Piece} (known : Known pieces) {r : Reading}
    (mem : r ∈ readings pieces) {precision : Precision}
    (role : r.role = .convert .string .none precision) {arguments : List Argument}
    (v : Nat → BitVec 32) (fits : Fits (readings pieces) arguments) {k : Nat} (short : k ≤ 100000)
    (allowed : ∀ n ∈ precision.limit (spread v arguments), k < n) :
    r.Touches strings (spread v arguments) k := by
  have bounds := known r mem
  have positive := bounds.1
  have type : r.type = .pointer .byte := by rw [Reading.type, role]; rfl
  have pointer := spread_pointerAt v fits mem bounds type
  unfold Reading.Touches
  rw [role]
  refine ⟨?_, allowed, fun j below => ?_⟩
  · rw [pointer]
    omega
  · rw [pointer, strings, if_neg (by omega)]
    decide

/-- An argument of bytes is read by `%s` or by `%p`. -/
theorem bytes_of_type {pieces : List Piece} {r : Reading} (mem : r ∈ readings pieces)
    (type : r.type = .pointer .byte) :
    (∃ p, r.role = .convert .string .none p) ∨ r.kind = .pointer := by
  obtain ⟨index, _ | ⟨l, m, p⟩⟩ := r
  · cases type
  · obtain ⟨c, next, inside, -⟩ := exists_conversion mem
    have takes := (Conversion.mem_readings inside rfl).1
    change l.type m = .pointer .byte at type
    cases l with
    | pointer =>
        right
        change kindOf m.code Letter.pointer.char = .pointer
        rw [kindOf_eq]
        rfl
    | string =>
        rcases takes with rfl | rfl
        · exact .inl ⟨p, rfl⟩
        · cases type
    | integer which => cases m <;> cases type
    | character => cases type
    | floating which => cases m <;> cases type
    | target => cases type

/-- The integers that let a precision reach past `k` bytes, and make any other 0. -/
def reaching (precision : Precision) (k index : Nat) : BitVec 32 :=
  if precision = .argument index then BitVec.ofNat 32 (k + 1) else 0#32

theorem reaching_toInt {k : Nat} (short : k ≤ 100000) (index : Nat) :
    (reaching (.argument index) k index).toInt = k + 1 := by
  unfold reaching
  rw [if_pos rfl, BitVec.toInt_eq_toNat_of_lt] <;> rw [BitVec.toNat_ofNat] <;> omega

theorem allowed_reaching {pieces : List Piece} (known : Known pieces) {arguments : List Argument}
    (fits : Fits (readings pieces) arguments) {r : Reading} (mem : r ∈ readings pieces)
    {precision : Precision} (role : r.role = .convert .string .none precision) {k : Nat}
    (short : k ≤ 100000) (number : ∀ m, precision = .number m → k < m) :
    ∀ n ∈ precision.limit (spread (reaching precision k) arguments), k < n := by
  intro n limit
  cases precision with
  | absent => cases limit
  | number m =>
      cases limit
      exact number _ rfl
  | argument j =>
      have star := exists_star mem role
      have value := spread_intAt (reaching (.argument j) k) fits star (known _ star).1 rfl
      dsimp only at value
      rw [reaching_toInt short] at value
      change (if intAt _ j < 0 then none else some (intAt _ j).toNat) = some n at limit
      rw [value, if_neg (by omega)] at limit
      cases limit
      omega

section Converse

variable {pieces : List Piece} (known : Known pieces)
  (safe : ∀ (ctx : Context) (shadow : Shadow) (memory : Memory) (arguments : List Argument),
    Fits (readings pieces) arguments →
      (∃ shadow', checkFormat ctx shadow memory (some (text pieces)) arguments = .ok shadow') →
        Safe ctx shadow memory (readings pieces) arguments)
  {arguments : List Argument} (fits : Fits (readings pieces) arguments)

include known safe fits

theorem target_reached {r : Reading} (mem : r ∈ readings pieces) {m : Modifier} {p : Precision}
    (role : r.role = .convert .target m p) : Reached (followed pieces) r.index := by
  by_contra lost
  have type : r.type = .pointer (.number m) := by rw [Reading.type, role]; rfl
  have touched : r.Touches strings (spread (fun _ => 0#32) arguments) 0 := by
    unfold Reading.Touches
    rw [role]
    change 0 < m.bytes
    cases m <;> decide
  obtain ⟨passed, bad⟩ := exists_unchecked known mem type (fun _ => 0#32) fits (Nat.zero_le _)
    touched fun reached => absurd reached lost
  exact bad (safe _ _ _ _ (fits.spread _) passed)

/-- A string of which `k` bytes are checked would be read past them. -/
theorem string_extent {r : Reading} (mem : r ∈ readings pieces) {precision : Precision}
    (role : r.role = .convert .string .none precision) {k : Nat} (short : k ≤ 100000)
    (number : ∀ m, precision = .number m → k < m)
    (checked : Reached (followed pieces) r.index →
      extent strings (scanFormat .start (text pieces)).uses
        (walked (scanFormat .start (text pieces)).uses (scanFormat .start (text pieces)).count)
        (valueAt (scanFormat .start (text pieces)).uses (spread (reaching precision k) arguments))
        (r.index - 1) ≤ k) : False := by
  have type : r.type = .pointer .byte := by rw [Reading.type, role]; rfl
  have allowed := allowed_reaching known fits mem role short number
  obtain ⟨passed, bad⟩ := exists_unchecked known mem type (reaching precision k) fits short
    (touches_strings known mem role _ fits short allowed) checked
  exact bad (safe _ _ _ _ (fits.spread _) passed)

theorem covering_of_safe : Covering (followed pieces) (readings pieces) := by
  intro r mem
  refine ⟨fun m p role => target_reached known safe fits mem role, fun precision role nonzero => ?_⟩
  have positive := (known r mem).1
  have type : r.type = .pointer .byte := by rw [Reading.type, role]; rfl
  have holds := scan_holds known
  have some : ∀ m, precision = .number m → 0 < m := by
    rintro m rfl
    exact Nat.pos_of_ne_zero fun zero => nonzero (by rw [zero])
  have reached : Reached (followed pieces) r.index := by
    by_contra lost
    exact string_extent known safe fits mem role (Nat.zero_le _) some fun here => absurd here lost
  obtain ⟨q, noted, same⟩ := reached r.index positive (Nat.le_refl _)
  have ofType : ∀ q ∈ followed pieces, q.index = r.index → q.type = .pointer .byte :=
    fun q noted same => (fits.same_type (followedFrom_subset q noted) mem same).trans type
  obtain ⟨first, noted', found, same'⟩ := exists_firstAt noted
  rw [same] at found same'
  have kind := holds.kind_of_first positive found
  rcases bytes_of_type (followedFrom_subset first noted') (ofType first noted' same') with
    ⟨own, string⟩ | pointer
  · refine ⟨reached, ⟨first, own, found, string⟩, ?_⟩
    obtain ⟨last, noted'', lastFound, same'', converts⟩ :=
      exists_lastAt noted' (by rw [Reading.converts, string])
    rw [same'] at lastFound
    obtain ⟨index, _ | ⟨l, m, kept⟩⟩ := last
    · cases converts
    refine ⟨_, l, m, kept, lastFound, rfl, ?_⟩
    obtain ⟨keptPrecision, keptArgument, -⟩ := holds.kept_of_last positive lastFound rfl
    by_contra notCovered
    -- the scan of the argument ends after `k` bytes
    suffices ends : ∃ k, k ≤ 100000 ∧ (∀ m, precision = .number m → k < m) ∧
        kept.value (spread (reaching precision k) arguments)
          (walked (scanFormat .start (text pieces)).uses (scanFormat .start (text pieces)).count) =
            k by
      obtain ⟨k, short, number, value⟩ := ends
      have bound := precisionOf_kept holds known (fits.spread (reaching precision k))
        (walked (scanFormat .start (text pieces)).uses (scanFormat .start (text pieces)).count)
        keptPrecision keptArgument (by
          rintro j rfl
          exact exists_star_noted noted'' rfl)
      refine string_extent known safe fits mem role short number fun _ => ?_
      unfold extent
      rw [kind, Reading.kind, string]
      change (if _ then 0 else Runtime.scanned _ _ (maxOf _)) ≤ k
      rw [bound, value]
      split
      · exact Nat.zero_le k
      · refine Nat.le_trans (scanned_le _ _ _) ?_
        rw [maxOf, if_neg (by omega), Int.toNat_natCast]
    cases kept with
    | absent => exact absurd trivial notCovered
    | number n =>
        refine ⟨if n ≤ 100000 then n else 0, ?_, ?_, ?_⟩
        · split <;> omega
        · rintro m rfl
          exact Nat.lt_of_not_le notCovered
        · change (if n ≤ 100000 then (n : Int) else 0) = _
          split <;> rfl
    | argument j =>
        -- the number that bounds the scan is another one, and is walked
        obtain ⟨other, here⟩ := not_or.mp notCovered
        have walks := holds.le_walked.mpr (not_not.mp here)
        have star := followedFrom_subset _ (exists_star_noted noted'' rfl)
        have value := spread_intAt (reaching precision 0) fits star (known _ star).1 rfl
        refine ⟨0, Nat.zero_le _, some, (if_pos walks).trans (value.trans ?_)⟩
        unfold reaching
        rw [if_neg other]
        rfl
  · -- the argument is kept as a pointer, and not scanned
    refine (string_extent known safe fits mem role (Nat.zero_le _) some fun _ => ?_).elim
    unfold extent
    rw [kind, pointer]

end Converse

/-- The checks of a format cover what a conforming function touches, in every
call that its types allow, exactly when its strings and targets are covered. -/
theorem format_checked_iff {pieces : List Piece} (known : Known pieces) :
    (∀ (ctx : Context) (shadow : Shadow) (memory : Memory) (arguments : List Argument),
      Fits (readings pieces) arguments →
        (∃ shadow', checkFormat ctx shadow memory (some (text pieces)) arguments = .ok shadow') →
          Safe ctx shadow memory (readings pieces) arguments) ↔
      ((∃ arguments, Fits (readings pieces) arguments) →
        Covering (followed pieces) (readings pieces)) := by
  constructor
  · rintro safe ⟨arguments, fits⟩
    exact covering_of_safe known safe fits
  · intro covering ctx shadow memory arguments fits passed
    exact safe_of_covering known (covering ⟨arguments, fits⟩) fits passed

/-- `%s`, of an argument in sequence or of the first, with a precision. -/
def stringOf (position : Option Digits) (precision : Amount) : Piece :=
  .conversion ⟨position, [], .absent, precision, .none, .string, nofun, nofun, .inl rfl⟩

/-- "hi", from 0x1000 on. -/
def greeting : Memory := fun address =>
  if address = 0x1000 then 104 else if address = 0x1001 then 105 else 0

theorem format_checked_string :
    (∃ shadow', checkFormat caller .clean greeting (some ['%', 's'])
      [.pointer .byte 0x1000#64] = .ok shadow') ∧
      Safe caller .clean greeting (readings [stringOf none .absent])
        [.pointer .byte 0x1000#64] := by
  have only : readings [stringOf none .absent] = [⟨1, .convert .string .none .absent⟩] := rfl
  have noted : followed [stringOf none .absent] = [⟨1, .convert .string .none .absent⟩] := rfl
  have known : Known [stringOf none .absent] := by
    unfold Known
    rw [only]
    decide
  have fits : Fits (readings [stringOf none .absent]) [.pointer .byte 0x1000#64] := by
    rw [only]
    intro r mem
    cases List.mem_singleton.mp mem
    rfl
  have passes : (checkFormat caller .clean greeting (some ['%', 's'])
      [.pointer .byte 0x1000#64]).toOption.isSome = true := by
    decide +kernel
  have passed : ∃ shadow', checkFormat caller .clean greeting (some ['%', 's'])
      [.pointer .byte 0x1000#64] = .ok shadow' := by
    cases checked : checkFormat caller .clean greeting (some ['%', 's'])
        [.pointer .byte 0x1000#64] with
    | ok shadow' => exact ⟨shadow', rfl⟩
    | error failure =>
        rw [checked] at passes
        cases passes
  refine ⟨passed, (format_checked_iff known).mpr (fun _ => ?_) _ _ _ _ fits passed⟩
  rw [only, noted]
  intro r mem
  cases List.mem_singleton.mp mem
  refine ⟨nofun, ?_⟩
  rintro precision role -
  cases role
  refine ⟨fun i low high => ⟨_, mem, ?_⟩, ⟨_, .absent, rfl, rfl⟩, _, .string, .none, .absent, rfl, rfl,
    trivial⟩
  exact Nat.le_antisymm low high

/-- `%1$s%1$.3s`: the precision of the second is kept for both. -/
theorem named_twice_not_checked : ¬ ∀ pieces : List Piece, Known pieces →
    ∀ (ctx : Context) (shadow : Shadow) (memory : Memory) (arguments : List Argument),
      Fits (readings pieces) arguments →
        (∃ shadow', checkFormat ctx shadow memory (some (text pieces)) arguments = .ok shadow') →
          Safe ctx shadow memory (readings pieces) arguments := by
  intro all
  have both : readings [stringOf (some [1]) .absent, stringOf (some [1]) (.number [3])] =
      [⟨1, .convert .string .none .absent⟩, ⟨1, .convert .string .none (.number 3)⟩] := rfl
  have noted : followed [stringOf (some [1]) .absent, stringOf (some [1]) (.number [3])] =
      [⟨1, .convert .string .none .absent⟩, ⟨1, .convert .string .none (.number 3)⟩] := by
    decide
  have known : Known [stringOf (some [1]) .absent, stringOf (some [1]) (.number [3])] := by
    unfold Known
    rw [both]
    decide
  have fits : Fits (readings [stringOf (some [1]) .absent, stringOf (some [1]) (.number [3])])
      [.pointer .byte 0#64] := by
    rw [both]
    intro r mem
    rcases List.mem_cons.mp mem with rfl | second
    · rfl
    · cases List.mem_singleton.mp second
      rfl
  have covering := covering_of_safe known (all _ known) fits
  rw [both, noted] at covering
  obtain ⟨-, -, last, letter, modifier, own, found, role, covers⟩ :=
    (covering _ List.mem_cons_self).2 _ rfl nofun
  cases found
  cases role
  exact covers

end WeaveC.Calls.Format
