import WeaveC.Pass.Enforcement
import Mathlib.Data.List.Basic

/-!
# What the ledger says of the emitted code

The copies a row counts are the guards the expansion kept and the calls it
redirected.  A string's scan, a wide string's and a call redirected before the
optimizer are never counted, so their rows end as proven whatever is left.
-/

namespace WeaveC.Pass.Enforcement

open WeaveC.Library

def Element.row : Element → Nat
  | .marker row _ _ => row
  | .stringMarker row => row
  | .stringCheck row => row
  | .wideScan row => row
  | .checkedCall row _ => row

inductive Kind where
  | access
  | string
  | wide
  | early
  | late
  deriving DecidableEq

def Element.kind : Element → Kind
  | .marker _ _ _ => .access
  | .stringMarker _ => .string
  | .stringCheck _ => .string
  | .wideScan _ => .wide
  | .checkedCall _ false => .early
  | .checkedCall _ true => .late

/-! ## The counters -/

namespace EnforcementLedger

theorem add_index (ledger : EnforcementLedger) (row : LedgerRow) :
    (ledger.add row).2 = ledger.rows.length := rfl

/-- Counting changes the counters only. -/
theorem copy_eq (ledger : EnforcementLedger) (index : Nat) (stays : Bool) (reason : String) :
    ledger.copy index stays reason =
      { ledger with copies := (ledger.copy index stays reason).copies } := by
  unfold copy
  split <;> rfl

theorem copy_length (ledger : EnforcementLedger) (index : Nat) (stays : Bool) (reason : String) :
    (ledger.copy index stays reason).copies.length = ledger.copies.length := by
  unfold copy
  split
  · rfl
  · exact List.length_set

/-- A copy counts for its row, when it stays. -/
theorem copy_stay {ledger : EnforcementLedger} {index : Nat} {stays : Bool} {reason : String}
    {r : Nat} {c : Copies} (found : (ledger.copy index stays reason).copies[r]? = some c) :
    ∃ old, ledger.copies[r]? = some old ∧
      c.stay = old.stay + BitVec.ofNat 32 (if stays = true ∧ r = index then 1 else 0) := by
  unfold copy at found
  split at found
  · rename_i missing
    refine ⟨c, found, ?_⟩
    rw [if_neg, BitVec.add_zero]
    rintro ⟨-, rfl⟩
    rw [missing] at found
    cases found
  · rename_i seen present
    by_cases same : r = index
    · subst same
      have inside := (List.getElem?_eq_some_iff.mp present).1
      rw [List.getElem?_set_self inside] at found
      refine ⟨seen, present, ?_⟩
      cases found
      cases stays with
      | true => rw [if_pos rfl, if_pos ⟨rfl, rfl⟩]
      | false =>
          rw [if_neg (by simp), if_neg (by simp), BitVec.add_zero]
    · rw [List.getElem?_set_ne (Ne.symm same)] at found
      refine ⟨c, found, ?_⟩
      rw [if_neg fun both => same both.2, BitVec.add_zero]

end EnforcementLedger

/-- The copies of a row's guard that the ledger is told stay. -/
def State.counted (s : State) (r : Nat) : Nat :=
  s.accesses.countP (fun access => decide (access.row = r) && decide (access.state = .guard)) +
    s.code.count (.checkedCall r true)

/-! ## The invariant of the passes -/

structure Inv (s : State) : Prop where
  lengths : s.ledger.copies.length = s.ledger.rows.length
  outcomes : ∀ row ∈ s.ledger.rows, row.outcome ≠ .proven
  code_lt : ∀ element ∈ s.code, element.row < s.ledger.rows.length
  accesses_lt : ∀ access ∈ s.accesses, access.row < s.ledger.rows.length
  uniform : ∀ element ∈ s.code, ∀ other ∈ s.code, element.row = other.row →
    element.kind = other.kind
  apart : ∀ element ∈ s.code, ∀ access ∈ s.accesses, access.row = element.row →
    element.kind = .access
  early : s.phase = .optimizing → ∀ element ∈ s.code, element.kind ≠ .late
  counted : ∀ (r : Nat) (c : Copies), s.ledger.copies[r]? = some c →
    c.stay = BitVec.ofNat 32 (s.counted r)

theorem inv_initial (verify : Bool) : Inv (initial verify) where
  lengths := rfl
  outcomes _ mem := nomatch mem
  code_lt _ mem := nomatch mem
  accesses_lt _ mem := nomatch mem
  uniform _ mem := nomatch mem
  apart _ mem := nomatch mem
  early _ _ mem := nomatch mem
  counted _ _ found := nomatch found

variable {s : State}

theorem count_late_of_kind {code : List Element} (none : ∀ element ∈ code, element.kind ≠ .late)
    (r : Nat) : code.count (.checkedCall r true) = 0 := by
  apply List.count_eq_zero_of_not_mem
  intro mem
  exact none _ mem rfl

/-- Elements that are replaced by others of their rows and kinds. -/
theorem Inv.recode (inv : Inv s) {code : List Element}
    (from' : ∀ element ∈ code, ∃ old ∈ s.code, element.row = old.row ∧ element.kind = old.kind)
    (late : ∀ r, code.count (.checkedCall r true) = s.code.count (.checkedCall r true)) :
    Inv { s with code := code } where
  lengths := inv.lengths
  outcomes := inv.outcomes
  code_lt element mem := by
    obtain ⟨old, mem', row, -⟩ := from' element mem
    rw [row]
    exact inv.code_lt old mem'
  accesses_lt := inv.accesses_lt
  uniform element mem other mem' same := by
    obtain ⟨old, was, row, kind⟩ := from' element mem
    obtain ⟨old', was', row', kind'⟩ := from' other mem'
    rw [kind, kind']
    exact inv.uniform old was old' was' (row.symm.trans (same.trans row'))
  apart element mem access mem' same := by
    obtain ⟨old, was, row, kind⟩ := from' element mem
    rw [kind]
    exact inv.apart old was access mem' (same.trans row)
  early phase element mem := by
    obtain ⟨old, was, -, kind⟩ := from' element mem
    rw [kind]
    exact inv.early phase old was
  counted r c found := by
    rw [inv.counted r c found, State.counted, State.counted]
    dsimp only
    rw [late]

theorem getElem?_snoc_or {α : Type} {xs : List α} {k : Nat} {x y : α}
    (found : (xs ++ [y])[k]? = some x) : xs[k]? = some x ∨ k = xs.length ∧ x = y := by
  by_cases before : k < xs.length
  · rw [List.getElem?_append_left before] at found
    exact .inl found
  · have inside := (List.getElem?_eq_some_iff.mp found).1
    rw [List.length_append, List.length_singleton] at inside
    have last : k = xs.length := by omega
    rw [last, List.getElem?_concat_length] at found
    exact .inr ⟨last, (Option.some.inj found).symm⟩

/-- Nothing is counted for a row that is not there. -/
theorem Inv.counted_fresh (inv : Inv s) {r : Nat} (fresh : s.ledger.rows.length ≤ r) :
    s.counted r = 0 := by
  unfold State.counted
  rw [List.countP_eq_zero.mpr, List.count_eq_zero_of_not_mem]
  · intro mem
    have inside := inv.code_lt _ mem
    change r < s.ledger.rows.length at inside
    omega
  · intro access mem both
    simp only [Bool.and_eq_true, decide_eq_true_eq] at both
    have inside := inv.accesses_lt access mem
    omega

theorem Inv.add (inv : Inv s) {row : LedgerRow} (new : row.outcome ≠ .proven) :
    Inv { s with ledger := (s.ledger.add row).1 } where
  lengths := by
    simp only [EnforcementLedger.add, List.length_append, List.length_singleton, inv.lengths]
  outcomes row' mem := by
    rcases List.mem_append.mp mem with old | last
    · exact inv.outcomes row' old
    · rw [List.mem_singleton] at last
      rw [last]
      exact new
  code_lt element mem := by
    have inside := inv.code_lt element mem
    simp only [EnforcementLedger.add, List.length_append, List.length_singleton]
    omega
  accesses_lt access mem := by
    have inside := inv.accesses_lt access mem
    simp only [EnforcementLedger.add, List.length_append, List.length_singleton]
    omega
  uniform := inv.uniform
  apart := inv.apart
  early := inv.early
  counted r c found := by
    rcases getElem?_snoc_or found with old | ⟨last, rfl⟩
    · exact inv.counted r c old
    · rw [inv.lengths] at last
      have none : s.counted r = 0 := inv.counted_fresh (by omega)
      change 0#32 = BitVec.ofNat 32 (s.counted r)
      rw [none]

/-- An element of a row that nothing else has, with the counters it leaves. -/
theorem Inv.push (inv : Inv s) {element : Element} {copies : List Copies}
    (length : copies.length = s.ledger.rows.length)
    (inside : element.row < s.ledger.rows.length)
    (fresh : ∀ other ∈ s.code, other.row ≠ element.row)
    (unused : ∀ access ∈ s.accesses, access.row ≠ element.row)
    (late : s.phase = .optimizing → element.kind ≠ .late)
    (counted : ∀ (r : Nat) (c : Copies), copies[r]? = some c →
      c.stay = BitVec.ofNat 32 (s.counted r + [element].count (.checkedCall r true))) :
    Inv { s with ledger := { s.ledger with copies := copies }, code := s.code ++ [element] } where
  lengths := length
  outcomes := inv.outcomes
  code_lt other mem := by
    rcases List.mem_append.mp mem with old | last
    · exact inv.code_lt other old
    · rw [List.mem_singleton] at last
      rw [last]
      exact inside
  accesses_lt := inv.accesses_lt
  uniform first mem second mem' same := by
    rcases List.mem_append.mp mem with old | last
    · rcases List.mem_append.mp mem' with old' | last'
      · exact inv.uniform first old second old' same
      · rw [List.mem_singleton] at last'
        rw [last'] at same
        exact absurd same (fresh first old)
    · rw [List.mem_singleton] at last
      rcases List.mem_append.mp mem' with old' | last'
      · rw [last] at same
        exact absurd same.symm (fresh second old')
      · rw [List.mem_singleton] at last'
        rw [last, last']
  apart other mem access mem' same := by
    rcases List.mem_append.mp mem with old | last
    · exact inv.apart other old access mem' same
    · rw [List.mem_singleton] at last
      rw [last] at same
      exact absurd same (unused access mem')
  early phase other mem := by
    rcases List.mem_append.mp mem with old | last
    · exact inv.early phase other old
    · rw [List.mem_singleton] at last
      rw [last]
      exact late phase
  counted r c found := by
    rw [counted r c found, State.counted, State.counted]
    dsimp only
    rw [List.count_append, Nat.add_assoc]

/-- The row of a new element is one nothing has yet. -/
theorem Inv.fresh (inv : Inv s) {element : Element} (row : element.row = s.ledger.rows.length) :
    (∀ other ∈ s.code, other.row ≠ element.row) ∧
      ∀ access ∈ s.accesses, access.row ≠ element.row := by
  constructor
  · intro other mem same
    have inside := inv.code_lt other mem
    omega
  · intro access mem same
    have inside := inv.accesses_lt access mem
    omega

theorem length_snoc {α : Type} (xs : List α) (x : α) : (xs ++ [x]).length = xs.length + 1 := by
  rw [List.length_append, List.length_singleton]

theorem Inv.record (inv : Inv s) (reason : String) {element : Nat → Element}
    (row : ∀ r, (element r).row = r) (notLate : ∀ r, (element r).kind ≠ .late) :
    Inv (s.record reason element) := by
  have added : Inv { s with ledger := (s.ledger.add ⟨.guarded, reason⟩).1 } :=
    inv.add nofun
  obtain ⟨fresh, unused⟩ := inv.fresh (row s.ledger.rows.length)
  refine added.push added.lengths ?_ fresh unused (fun _ => notLate _) ?_
  · rw [row]
    exact Nat.lt_of_lt_of_eq (Nat.lt_succ_self _) (length_snoc _ _).symm
  · intro r c found
    have none : [element s.ledger.rows.length].count (.checkedCall r true) = 0 := by
      apply count_late_of_kind
      intro only mem
      rw [List.mem_singleton] at mem
      rw [mem]
      exact notLate _
    rw [EnforcementLedger.add_index, none, Nat.add_zero]
    exact added.counted r c found

/-- A call redirected after the optimizer, with its one copy. -/
theorem Inv.redirectLate (inv : Inv s) (late : s.phase ≠ .optimizing) :
    Inv { s.record "checked-call" fun row => .checkedCall row true with
      ledger := (s.record "checked-call" fun row => .checkedCall row true).ledger.copy
        s.ledger.rows.length true "checked-call" } := by
  have added : Inv { s with ledger := (s.ledger.add ⟨.guarded, "checked-call"⟩).1 } :=
    inv.add nofun
  obtain ⟨fresh, unused⟩ :=
    inv.fresh (show (Element.checkedCall s.ledger.rows.length true).row = _ from rfl)
  rw [EnforcementLedger.copy_eq]
  refine added.push ?_ ?_ fresh unused (fun early => absurd early late) ?_
  · rw [EnforcementLedger.copy_length]
    exact added.lengths
  · exact Nat.lt_of_lt_of_eq (Nat.lt_succ_self _) (length_snoc _ _).symm
  · intro r c found
    obtain ⟨old, was, stay⟩ := EnforcementLedger.copy_stay found
    rw [stay, added.counted r old was, ← BitVec.ofNat_add]
    congr 2
    rw [EnforcementLedger.add_index]
    by_cases same : r = s.ledger.rows.length
    · rw [if_pos ⟨rfl, same⟩, same, List.count_singleton_self]
    · rw [if_neg fun both => same both.2, List.count_singleton, if_neg]
      intro eq
      rw [beq_iff_eq] at eq
      cases eq
      exact same rfl

/-- A marker that becomes an access. -/
theorem Inv.expand (inv : Inv s) {element : Element} (mem : element ∈ s.code)
    (marker : element.kind = .access) {access : Access} (row : access.row = element.row)
    (reason : String) :
    Inv { s with
      code := s.code.erase element
      ledger := s.ledger.copy element.row (access.state = .guard) reason
      accesses := s.accesses ++ [access] } := by
  rw [EnforcementLedger.copy_eq]
  constructor
  case lengths =>
    dsimp only
    rw [EnforcementLedger.copy_length]
    exact inv.lengths
  case outcomes => exact inv.outcomes
  case code_lt =>
    intro other mem'
    exact inv.code_lt other (List.mem_of_mem_erase mem')
  case accesses_lt =>
    intro other mem'
    rcases List.mem_append.mp mem' with old | last
    · exact inv.accesses_lt other old
    · rw [List.mem_singleton] at last
      rw [last, row]
      exact inv.code_lt element mem
  case uniform =>
    intro first was second was'
    exact inv.uniform first (List.mem_of_mem_erase was) second (List.mem_of_mem_erase was')
  case apart =>
    intro other was access' mem' same
    have was := List.mem_of_mem_erase was
    rcases List.mem_append.mp mem' with old | last
    · exact inv.apart other was access' old same
    · rw [List.mem_singleton] at last
      rw [last, row] at same
      rw [← inv.uniform element mem other was same]
      exact marker
  case early =>
    intro phase other was
    exact inv.early phase other (List.mem_of_mem_erase was)
  case counted =>
    intro r c found
    obtain ⟨old, was, stay⟩ := EnforcementLedger.copy_stay found
    have unchanged : (s.code.erase element).count (.checkedCall r true) =
        s.code.count (.checkedCall r true) := by
      apply List.count_erase_of_ne
      intro same
      rw [← same] at marker
      cases marker
    rw [stay, inv.counted r old was, ← BitVec.ofNat_add, State.counted, State.counted]
    dsimp only
    rw [unchanged, List.countP_append, List.countP_singleton, row, Nat.add_right_comm]
    congr 3
    by_cases own : r = element.row
    · by_cases stays : access.state = .guard
      · rw [if_pos ⟨decide_eq_true stays, own⟩, if_pos]
        rw [decide_eq_true stays, decide_eq_true own.symm]
        rfl
      · rw [if_neg fun both => stays (of_decide_eq_true both.1), if_neg]
        rw [decide_eq_false stays, Bool.and_false]
        exact Bool.false_ne_true
    · rw [if_neg fun both => own both.2, if_neg]
      rw [decide_eq_false (Ne.symm own), Bool.false_and]
      exact Bool.false_ne_true

/-! ## Every step -/

theorem mem_of_take {element : Element} {next : State → Option State} {s' : State}
    (taken : s.take element next = some s') :
    element ∈ s.code ∧ next { s with code := s.code.erase element } = some s' := by
  unfold State.take at taken
  split at taken
  · rename_i mem
    exact ⟨mem, taken⟩
  · cases taken

/-- An element taken for others of its row and kind. -/
theorem Inv.swap (inv : Inv s) {element : Element} (mem : element ∈ s.code)
    (notLate : element.kind ≠ .late) {others : List Element}
    (same : ∀ other ∈ others, other.row = element.row ∧ other.kind = element.kind) :
    Inv { s with code := s.code.erase element ++ others } := by
  refine inv.recode (fun other mem' => ?_) fun r => ?_
  · rcases List.mem_append.mp mem' with old | new
    · exact ⟨other, List.mem_of_mem_erase old, rfl, rfl⟩
    · exact ⟨element, mem, same other new⟩
  · have none : others.count (.checkedCall r true) = 0 := by
      apply count_late_of_kind
      intro other new
      rw [(same other new).2]
      exact notLate
    rw [List.count_append, none, Nat.add_zero]
    apply List.count_erase_of_ne
    intro eq
    rw [← eq] at notLate
    exact notLate rfl

theorem Inv.erase (inv : Inv s) {element : Element} (mem : element ∈ s.code)
    (notLate : element.kind ≠ .late) : Inv { s with code := s.code.erase element } := by
  have swapped : Inv { s with code := s.code.erase element ++ [] } :=
    inv.swap mem notLate nofun
  rwa [List.append_nil] at swapped

theorem Inv.copyRemoved (inv : Inv s) (index : Nat) (reason : String) :
    Inv { s with ledger := s.ledger.copy index false reason } := by
  rw [EnforcementLedger.copy_eq]
  refine ⟨?_, inv.outcomes, inv.code_lt, inv.accesses_lt, inv.uniform, inv.apart, inv.early, ?_⟩
  · exact (EnforcementLedger.copy_length _ _ _ _).trans inv.lengths
  · intro r c found
    obtain ⟨old, was, stay⟩ := EnforcementLedger.copy_stay found
    rw [if_neg fun both => Bool.false_ne_true both.1, BitVec.add_zero] at stay
    rw [stay]
    exact inv.counted r old was

theorem Inv.step {s' : State} {e : Event} (inv : Inv s) (taken : s.step e = some s') :
    s'.phase = .finished ∨ Inv s' := by
  cases e with
  | leave =>
      simp only [State.step, Option.ite_none_right_eq_some, Option.some.injEq] at taken
      obtain ⟨-, rfl⟩ := taken
      exact .inr (inv.add nofun)
  | insertGuard width reason =>
      simp only [State.step, Option.ite_none_right_eq_some, Option.some.injEq] at taken
      obtain ⟨-, rfl⟩ := taken
      exact .inr (inv.record reason (fun _ => rfl) fun _ => nofun)
  | insertString =>
      simp only [State.step, Option.ite_none_right_eq_some, Option.some.injEq] at taken
      obtain ⟨-, rfl⟩ := taken
      exact .inr (inv.record "string" (fun _ => rfl) fun _ => nofun)
  | scanWide =>
      simp only [State.step, Option.ite_none_right_eq_some, Option.some.injEq] at taken
      obtain ⟨-, rfl⟩ := taken
      exact .inr (inv.record "string" (fun _ => rfl) fun _ => nofun)
  | redirect =>
      simp only [State.step] at taken
      split at taken
      · cases taken
        exact .inr (inv.record "checked-call" (fun _ => rfl) fun _ => nofun)
      · rename_i expanding
        cases taken
        exact .inr (inv.redirectLate (by rw [expanding]; exact nofun))
      · cases taken
  | duplicate element =>
      simp only [State.step, Option.ite_none_right_eq_some, Option.some.injEq] at taken
      obtain ⟨⟨optimizing, mem⟩, rfl⟩ := taken
      refine .inr (inv.recode (fun other mem' => ?_) fun r => ?_)
      · rcases List.mem_append.mp mem' with old | last
        · exact ⟨other, old, rfl, rfl⟩
        · rw [List.mem_singleton] at last
          exact ⟨element, mem, by rw [last], by rw [last]⟩
      · have none : [element].count (.checkedCall r true) = 0 := by
          apply count_late_of_kind
          intro other last
          rw [List.mem_singleton] at last
          rw [last]
          exact inv.early optimizing element mem
        rw [List.count_append, none, Nat.add_zero]
  | delete element =>
      simp only [State.step, Option.ite_none_right_eq_some] at taken
      obtain ⟨optimizing, taken⟩ := taken
      obtain ⟨mem, rest⟩ := mem_of_take taken
      cases rest
      exact .inr (inv.erase mem (inv.early optimizing element mem))
  | fold row proven width =>
      simp only [State.step, Option.ite_none_right_eq_some] at taken
      obtain ⟨-, taken⟩ := taken
      obtain ⟨mem, rest⟩ := mem_of_take taken
      cases rest
      refine .inr (inv.swap mem nofun fun other last => ?_)
      rw [List.mem_singleton] at last
      rw [last]
      exact ⟨rfl, rfl⟩
  | prune row width proven =>
      simp only [State.step, Option.ite_none_right_eq_some] at taken
      obtain ⟨-, taken⟩ := taken
      obtain ⟨mem, rest⟩ := mem_of_take taken
      dsimp only at rest
      split at rest
      · cases rest
        refine .inr (inv.swap mem nofun fun other last => ?_)
        rw [List.mem_singleton] at last
        rw [last]
        exact ⟨rfl, rfl⟩
      · cases rest
        exact .inr ((inv.erase mem nofun).copyRemoved row "in-bounds")
  | startExpand =>
      simp only [State.step, Option.ite_none_right_eq_some, Option.some.injEq] at taken
      obtain ⟨-, rfl⟩ := taken
      exact .inr ⟨inv.lengths, inv.outcomes, inv.code_lt, inv.accesses_lt, inv.uniform,
        inv.apart, nofun, inv.counted⟩
  | expand row width proven access =>
      simp only [State.step, Option.ite_none_right_eq_some] at taken
      obtain ⟨⟨-, same, -, -⟩, taken⟩ := taken
      obtain ⟨mem, rest⟩ := mem_of_take taken
      cases rest
      exact .inr (inv.expand mem rfl same (reasonOf access.state))
  | expandString row =>
      simp only [State.step, Option.ite_none_right_eq_some] at taken
      obtain ⟨-, taken⟩ := taken
      obtain ⟨mem, rest⟩ := mem_of_take taken
      cases rest
      refine .inr (inv.swap mem nofun fun other last => ?_)
      rw [List.mem_singleton] at last
      rw [last]
      exact ⟨rfl, rfl⟩
  | finish =>
      simp only [State.step, Option.ite_none_right_eq_some, Option.some.injEq] at taken
      obtain ⟨-, rfl⟩ := taken
      exact .inl rfl

/-- The ledger is finished once. -/
theorem step_finished {e : Event} (finished : s.phase = .finished) : s.step e = none := by
  cases e with
  | insertGuard width reason => exact if_neg fun live => live finished
  | insertString => exact if_neg fun live => live finished
  | scanWide => exact if_neg fun live => live finished
  | redirect => simp only [State.step, finished]
  | leave | delete element | fold row proven width | prune row width proven | startExpand
  | expandString row =>
      refine if_neg fun phase => ?_
      rw [finished] at phase
      cases phase
  | duplicate element | expand row width proven access | finish =>
      refine if_neg fun both => ?_
      rw [finished] at both
      cases both.1

theorem inv_run {verify : Bool} (run : Run State.step (fun _ _ => True) (initial verify) s) :
    s.phase = .finished ∨ Inv s := by
  refine run.invariant (I := fun s => s.phase = .finished ∨ Inv s)
    (.inr (inv_initial verify)) fun s e s' reached _ taken => ?_
  rcases reached with finished | inv
  · rw [step_finished finished] at taken
    cases taken
  · exact inv.step taken

/-! ## The outcome of a row -/

/-- What the outcome of a row is settled from: its check is a kind whose copies
are counted, and the counter is zero when no check of it is emitted, and then only. -/
structure Counts (s : State) (r : Nat) : Prop where
  reported : ∀ element ∈ s.code, element.row = r →
    element.kind = .access ∨ element.kind = .late
  exact : s.counted r % 2 ^ 32 ≠ 0 ↔
    (∃ access ∈ s.accesses, access.row = r ∧ access.emits = true) ∨ .checkedCall r true ∈ s.code

/-- What is emitted of a row is counted to stay. -/
theorem counted_pos {r : Nat} (emitted : (∃ access ∈ s.accesses, access.row = r ∧
    access.emits = true) ∨ .checkedCall r true ∈ s.code) : 0 < s.counted r := by
  unfold State.counted
  rcases emitted with ⟨access, mem, own, emits⟩ | call
  · refine Nat.add_pos_left (List.countP_pos_iff.mpr ⟨access, mem, ?_⟩) _
    unfold Access.emits at emits
    rw [own, decide_eq_true rfl, Bool.true_and]
    exact (Bool.and_eq_true_iff.mp emits).1
  · exact Nat.add_pos_right _ (List.count_pos_iff.mpr call)

/-- Where the counter has not wrapped: none of the row's counted copies is kept,
or one that is emitted is, which a guard of the constant width 0 is not. -/
theorem counts_iff_of_few {r : Nat} (few : s.counted r < 2 ^ 32) :
    Counts s r ↔
      (∀ element ∈ s.code, element.row = r → element.kind = .access ∨ element.kind = .late) ∧
        (s.counted r = 0 ∨ (∃ access ∈ s.accesses, access.row = r ∧ access.emits = true) ∨
          .checkedCall r true ∈ s.code) := by
  have whole : s.counted r % 2 ^ 32 = s.counted r := Nat.mod_eq_of_lt few
  constructor
  · intro counts
    refine ⟨counts.reported, ?_⟩
    by_cases none : s.counted r = 0
    · exact .inl none
    · exact .inr (counts.exact.mp (whole.symm ▸ none))
  · rintro ⟨reported, kept⟩
    refine ⟨reported, ?_⟩
    rw [whole]
    exact ⟨fun some => kept.resolve_left some, fun emitted => Nat.ne_of_gt (counted_pos emitted)⟩

/-- A row recorded as guarded ends as proven when nothing was counted to stay. -/
theorem proven_iff {s' : State} (inv : Inv s) (done : s.step .finish = some s') {r : Nat}
    {row : LedgerRow} (recorded : s.ledger.rows[r]? = some row) (guarded : row.outcome = .guarded) :
    (∃ row', s'.ledger.rows[r]? = some row' ∧ row'.outcome = .proven) ↔
      s.counted r % 2 ^ 32 = 0 := by
  simp only [State.step, Option.ite_none_right_eq_some, Option.some.injEq] at done
  obtain ⟨-, rfl⟩ := done
  have inside := (List.getElem?_eq_some_iff.mp recorded).1
  rw [← inv.lengths] at inside
  have seen := inv.counted r _ (List.getElem?_eq_getElem inside)
  have settled : s.ledger.finish.rows[r]? =
      some (EnforcementLedger.settle row s.ledger.copies[r]) := by
    unfold EnforcementLedger.finish
    dsimp only
    rw [List.getElem?_zipWith, recorded, List.getElem?_eq_getElem inside]
  have stay : s.ledger.copies[r].stay = 0#32 ↔ s.counted r % 2 ^ 32 = 0 := by
    rw [seen, ← BitVec.toNat_inj, BitVec.toNat_ofNat]
    rfl
  dsimp only
  rw [settled, ← stay]
  unfold EnforcementLedger.settle
  constructor
  · rintro ⟨row', found, proven⟩
    by_contra stays
    rw [if_neg fun both => stays both.2] at found
    cases found
    rw [guarded] at proven
    cases proven
  · intro none
    exact ⟨_, rfl, by rw [if_pos ⟨guarded, none⟩]⟩

theorem finish_code {s' : State} (done : s.step .finish = some s') :
    s'.code = s.code ∧ s'.accesses = s.accesses ∧
      ∀ element ∈ s.code, element.isMarker = false := by
  simp only [State.step, Option.ite_none_right_eq_some, Option.some.injEq] at done
  obtain ⟨⟨-, expanded⟩, rfl⟩ := done
  exact ⟨rfl, rfl, expanded⟩

/-- A check of a kind that is never reported stays uncounted. -/
theorem Inv.counted_unreported (inv : Inv s) {element : Element} (mem : element ∈ s.code)
    (access : element.kind ≠ .access) (late : element.kind ≠ .late) :
    s.counted element.row = 0 := by
  unfold State.counted
  rw [List.countP_eq_zero.mpr, List.count_eq_zero_of_not_mem]
  · intro called
    exact late (inv.uniform element mem _ called rfl)
  · intro other mem' both
    simp only [Bool.and_eq_true, decide_eq_true_eq] at both
    exact access (inv.apart element mem other mem' both.1)

/-- What is left of a row whose checks are all reported. -/
theorem remains_of_reported {r : Nat}
    (reported : ∀ element ∈ s.code, element.row = r →
      element.kind = .access ∨ element.kind = .late) :
    Remains s r ↔ (∃ access ∈ s.accesses, access.row = r ∧ access.emits = true) ∨
      .checkedCall r true ∈ s.code := by
  constructor
  · rintro (emitted | string | wide | ⟨late, call⟩)
    · exact .inl emitted
    · exact (reported _ string rfl).elim nofun nofun
    · exact (reported _ wide rfl).elim nofun nofun
    · cases late with
      | true => exact .inr call
      | false => exact (reported _ call rfl).elim nofun nofun
  · rintro (emitted | call)
    · exact .inl emitted
    · exact .inr (.inr (.inr ⟨true, call⟩))

theorem remains_of_unreported {element : Element} (mem : element ∈ s.code)
    (expanded : element.isMarker = false) : Remains s element.row := by
  cases element with
  | marker row width proven => cases expanded
  | stringMarker row => cases expanded
  | stringCheck row => exact .inr (.inl mem)
  | wideScan row => exact .inr (.inr (.inl mem))
  | checkedCall row late => exact .inr (.inr (.inr ⟨late, mem⟩))

theorem ledger_true_iff {verify : Bool} {s s' : State}
    (run : Run State.step (fun _ _ => True) (initial verify) s)
    (done : s.step .finish = some s') {r : Nat} {row : LedgerRow}
    (recorded : s.ledger.rows[r]? = some row) (guarded : row.outcome = .guarded) :
    ((∃ row', s'.ledger.rows[r]? = some row' ∧ row'.outcome = .proven) ↔ ¬ Remains s' r) ↔
      Counts s r := by
  have inv : Inv s := by
    refine (inv_run run).resolve_left fun finished => ?_
    rw [step_finished finished] at done
    cases done
  obtain ⟨code, accesses, expanded⟩ := finish_code done
  have same : Remains s' r ↔ Remains s r := by
    unfold Remains
    rw [code, accesses]
  rw [proven_iff inv done recorded guarded, same]
  by_cases reported : ∀ element ∈ s.code, element.row = r →
      element.kind = .access ∨ element.kind = .late
  · rw [remains_of_reported reported]
    constructor
    · intro agree
      exact ⟨reported, (not_congr agree).trans not_not⟩
    · intro counts
      rw [← not_congr counts.exact, not_not]
  · constructor
    · -- nothing was counted, yet the check is there
      intro agree
      push Not at reported
      obtain ⟨element, mem, rfl, access, late⟩ := reported
      rw [inv.counted_unreported mem access late] at agree
      exact absurd (remains_of_unreported mem (expanded element mem)) (agree.mp rfl)
    · intro counts
      exact absurd counts.reported reported

/-- One access whose guard stays. -/
def accessRun : List Event :=
  [.insertGuard (some 8#64) "access", .startExpand,
    .expand 0 (some 8#64) false ⟨0, .guard, some 8#64⟩]

theorem accessRun_run : ∃ s, Run State.step (fun _ _ => True) (initial false) s ∧
    (s.ledger.rows, s.code, s.accesses, s.phase) =
      ([⟨.guarded, "access"⟩], [], [⟨0, .guard, some 8#64⟩], .expanding) := by
  apply Run.exists_exec accessRun
  decide +kernel

theorem ledger_true_access : ∃ _ s' : State,
    ((∃ row', s'.ledger.rows[0]? = some row' ∧ row'.outcome = .proven) ↔ ¬ Remains s' 0) ∧
      Remains s' 0 := by
  obtain ⟨s, run, seen⟩ := accessRun_run
  simp only [Prod.mk.injEq] at seen
  obtain ⟨rows, code, accesses, phase⟩ := seen
  have done : s.step .finish = some { s with phase := .finished, ledger := s.ledger.finish } := by
    refine if_pos ⟨phase, ?_⟩
    rw [code]
    exact nofun
  have recorded : s.ledger.rows[0]? = some ⟨.guarded, "access"⟩ := by rw [rows]; rfl
  have emitted : ∃ access ∈ s.accesses, access.row = 0 ∧ access.emits = true := by
    rw [accesses]
    exact ⟨_, List.mem_singleton_self _, rfl, by decide⟩
  have few : s.counted 0 < 2 ^ 32 := by
    unfold State.counted
    rw [code, accesses]
    decide
  refine ⟨s, _, (ledger_true_iff run done recorded rfl).mpr
    ((counts_iff_of_few few).mpr ⟨?_, .inr (.inl emitted)⟩), .inl emitted⟩
  rw [code]
  exact nofun

/-- A string argument: its scan is in the code that the ledger says needs none. -/
def stringRun : List Event := [.insertString, .startExpand, .expandString 0]

theorem stringRun_run : ∃ s, Run State.step (fun _ _ => True) (initial false) s ∧
    (s.ledger.rows, s.ledger.copies, s.code, s.phase) =
      ([⟨.guarded, "string"⟩], [⟨0#32, 0#32, ""⟩], [.stringCheck 0], .expanding) := by
  apply Run.exists_exec stringRun
  decide +kernel

theorem string_row_not_true : ¬ ∀ (verify : Bool) (s s' : State),
    Run State.step (fun _ _ => True) (initial verify) s → s.step .finish = some s' →
      ∀ (r : Nat) (row : LedgerRow), s.ledger.rows[r]? = some row → row.outcome = .guarded →
        ((∃ row', s'.ledger.rows[r]? = some row' ∧ row'.outcome = .proven) ↔
          ¬ Remains s' r) := by
  intro holds
  obtain ⟨s, run, seen⟩ := stringRun_run
  simp only [Prod.mk.injEq] at seen
  obtain ⟨rows, copies, code, phase⟩ := seen
  have done : s.step .finish = some { s with phase := .finished, ledger := s.ledger.finish } := by
    refine if_pos ⟨phase, ?_⟩
    rw [code]
    decide
  have recorded : s.ledger.rows[0]? = some ⟨.guarded, "string"⟩ := by rw [rows]; rfl
  have proven : s.ledger.finish.rows = [⟨.proven, "optimized"⟩] := by
    unfold EnforcementLedger.finish
    rw [rows, copies]
    decide
  refine (holds false s _ run done 0 _ recorded rfl).mp ⟨⟨.proven, "optimized"⟩, ?_, rfl⟩
    (.inr (.inl ?_))
  · dsimp only
    rw [proven]
    rfl
  · dsimp only
    rw [code]
    exact List.mem_singleton_self _

end WeaveC.Pass.Enforcement
