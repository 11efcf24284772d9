import WeaveC.Pass.Merge
import WeaveC.Pass.HullSpec
import Mathlib.Data.List.Basic

/-!
# What merging preserves

The hull of a group is that of its members, taken in signed arithmetic that
wraps.  The guard of the hull stops a run where the guards of the members do
when it tests the null bases they test and covers the bytes they decide.
-/

namespace WeaveC.Pass.Merge

open WeaveC.Library WeaveC.Runtime

/-! ## Groups -/

theorem getElem?_append_of_some {α : Type} {xs ys : List α} {k : Nat} {x : α}
    (found : xs[k]? = some x) : (xs ++ ys)[k]? = some x := by
  rw [List.getElem?_append_left (List.getElem?_eq_some_iff.mp found).1]
  exact found

theorem getElem?_snoc_cases {α : Type} {xs : List α} {k : Nat} {x y : α}
    (found : (xs ++ [y])[k]? = some x) : xs[k]? = some x ∨ k = xs.length ∧ x = y := by
  by_cases before : k < xs.length
  · rw [List.getElem?_append_left before] at found
    exact .inl found
  · have inside := (List.getElem?_eq_some_iff.mp found).1
    rw [List.length_append, List.length_singleton] at inside
    have last : k = xs.length := by omega
    rw [last, List.getElem?_concat_length] at found
    exact .inr ⟨last, (Option.some.inj found).symm⟩

/-- The least offset of a group and its greatest end. -/
def hullLow (leader : Access) (merged : List Access) : BitVec 64 :=
  merged.foldl (fun low access => signedMin low access.offset) leader.offset

def hullHigh (leader : Access) (merged : List Access) : BitVec 64 :=
  merged.foldl (fun high access => signedMax high (access.offset + access.width))
    (leader.offset + leader.width)

/-- The guard of a leader is that of the hull of its group. -/
structure Access.Hull (leader : Access) (merged : List Access) : Prop where
  low : leader.guardOffset = hullLow leader merged
  high : leader.guardOffset + leader.guardWidth = hullHigh leader merged

/-- An access that others may join. -/
structure Access.Leads (leader : Access) (base : Value) : Prop where
  state : leader.state = .guard
  base : leader.base = some base

namespace Merging

structure Inv (m : Merging) : Prop where
  hull : ∀ (k : Nat) (leader : Access), m.accesses[k]? = some leader →
    leader.Hull (mergedInto m.accesses k)
  led : ∀ access ∈ m.accesses, access.state = .merged →
    ∃ (leader : Access) (base : Value), m.accesses[access.leader]? = some leader ∧
      leader.Leads base ∧ access.base = some base
  opened : ∀ base g, m.opened base = some g →
    ∃ leader : Access, m.accesses[g]? = some leader ∧ leader.Leads base

variable {m : Merging}

/-- Nothing is merged into what is not there yet. -/
theorem Inv.mergedInto_length (inv : m.Inv) : mergedInto m.accesses m.accesses.length = [] := by
  apply List.filter_eq_nil_iff.mpr
  intro access mem both
  simp only [Bool.and_eq_true, decide_eq_true_eq] at both
  obtain ⟨leader, base, found, -, -⟩ := inv.led access mem both.1
  rw [both.2, List.getElem?_eq_none (Nat.le_refl _)] at found
  cases found

theorem mergedInto_append_other (accesses : List Access) (k : Nat) {access : Access}
    (apart : ¬ (access.state = .merged ∧ access.leader = k)) :
    mergedInto (accesses ++ [access]) k = mergedInto accesses k := by
  unfold mergedInto
  rw [List.filter_append, List.filter_cons_of_neg, List.filter_nil, List.append_nil]
  intro both
  simp only [Bool.and_eq_true, decide_eq_true_eq] at both
  exact apart both

theorem mergedInto_append_self (accesses : List Access) {access : Access}
    (merged : access.state = .merged) :
    mergedInto (accesses ++ [access]) access.leader =
      mergedInto accesses access.leader ++ [access] := by
  unfold mergedInto
  rw [List.filter_append, List.filter_cons_of_pos, List.filter_nil]
  simp only [merged, decide_true, Bool.and_self]

theorem filter_set_of_neg {α : Type} {p : α → Bool} {a b : α} (xs : List α) (i : Nat)
    (found : xs[i]? = some a) (old : p a = false) (new : p b = false) :
    (xs.set i b).filter p = xs.filter p := by
  induction xs generalizing i with
  | nil => rfl
  | cons x xs ih =>
    cases i with
    | zero =>
      cases found
      rw [List.set_cons_zero, List.filter_cons_of_neg, List.filter_cons_of_neg]
      · simp [old]
      · simp [new]
    | succ i =>
      rw [List.set_cons_succ, List.filter_cons, List.filter_cons, ih i found]

/-- Widening a leader's guard moves no access to another group. -/
theorem mergedInto_set (accesses : List Access) (g k : Nat) {leader wider : Access}
    (found : accesses[g]? = some leader) (old : leader.state = .guard)
    (new : wider.state = .guard) :
    mergedInto (accesses.set g wider) k = mergedInto accesses k := by
  refine filter_set_of_neg accesses g found ?_ ?_
  · simp [old]
  · simp [new]

/-- What an access that was not merged leaves of the invariant. -/
theorem Inv.append_unmerged (inv : m.Inv) {access : Access} (unmerged : access.state ≠ .merged)
    (own : access.Hull []) (opened : Value → Option Nat)
    (kept : ∀ base g, opened base = some g → m.opened base = some g ∨
      g = m.accesses.length ∧ access.Leads base) :
    Inv ⟨m.accesses ++ [access], opened⟩ where
  hull k leader found := by
    dsimp only at *
    rw [mergedInto_append_other _ _ fun both => unmerged both.1]
    rcases getElem?_snoc_cases found with before | ⟨rfl, rfl⟩
    · exact inv.hull k leader before
    · rw [inv.mergedInto_length]
      exact own
  led other mem merged := by
    rcases List.mem_append.mp mem with before | last
    · obtain ⟨leader, base, found, leads⟩ := inv.led other before merged
      exact ⟨leader, base, getElem?_append_of_some found, leads⟩
    · rw [List.mem_singleton] at last
      subst last
      exact absurd merged unmerged
  opened base g isOpen := by
    rcases kept base g isOpen with before | ⟨rfl, leads⟩
    · obtain ⟨leader, found, leads⟩ := inv.opened base g before
      exact ⟨leader, getElem?_append_of_some found, leads⟩
    · exact ⟨access, by simp, leads⟩

theorem getElem?_set_cases {α : Type} {xs : List α} {g k : Nat} {x y : α}
    (found : (xs.set g y)[k]? = some x) : k = g ∧ x = y ∨ k ≠ g ∧ xs[k]? = some x := by
  by_cases same : k = g
  · subst same
    have inside := (List.getElem?_eq_some_iff.mp found).1
    rw [List.length_set] at inside
    rw [List.getElem?_set_self inside] at found
    exact .inl ⟨rfl, (Option.some.inj found).symm⟩
  · rw [List.getElem?_set_ne (Ne.symm same)] at found
    exact .inr ⟨same, found⟩

theorem hullLow_snoc (leader : Access) (merged : List Access) (access : Access) :
    hullLow leader (merged ++ [access]) = signedMin (hullLow leader merged) access.offset := by
  unfold hullLow
  rw [List.foldl_append, List.foldl_cons, List.foldl_nil]

theorem hullHigh_snoc (leader : Access) (merged : List Access) (access : Access) :
    hullHigh leader (merged ++ [access]) =
      signedMax (hullHigh leader merged) (access.offset + access.width) := by
  unfold hullHigh
  rw [List.foldl_append, List.foldl_cons, List.foldl_nil]

/-- A leader with a wider guard, and an access that joins it. -/
structure Joining (leader wider access joins : Access) (g : Nat) : Prop where
  low : wider.guardOffset = signedMin leader.guardOffset access.offset
  high : wider.guardOffset + wider.guardWidth =
    signedMax (leader.guardOffset + leader.guardWidth) (access.offset + access.width)
  same : wider.state = leader.state ∧ wider.base = leader.base ∧ wider.offset = leader.offset ∧
    wider.width = leader.width
  joined : joins.state = .merged ∧ joins.leader = g
  kept : joins.base = access.base ∧ joins.offset = access.offset ∧ joins.width = access.width
  own : joins.guardOffset = access.offset ∧ joins.guardWidth = access.width

variable {leader wider access joins : Access} {g : Nat} {base : Value}

theorem Joining.hull_wider (joining : Joining leader wider access joins g) {merged : List Access}
    (hull : leader.Hull merged) : wider.Hull (merged ++ [joins]) := by
  have offset : hullLow wider merged = hullLow leader merged := by
    rw [hullLow, hullLow, joining.same.2.2.1]
  have stop : hullHigh wider merged = hullHigh leader merged := by
    rw [hullHigh, hullHigh, joining.same.2.2.1, joining.same.2.2.2]
  constructor
  · rw [hullLow_snoc, offset, joining.low, hull.low, joining.kept.2.1]
  · rw [hullHigh_snoc, stop, joining.high, hull.high, joining.kept.2.1, joining.kept.2.2]

theorem Joining.hull_joined (joining : Joining leader wider access joins g) : joins.Hull [] := by
  constructor
  · rw [hullLow, List.foldl_nil, joining.own.1, joining.kept.2.1]
  · rw [hullHigh, List.foldl_nil, joining.own.1, joining.own.2, joining.kept.2.1,
      joining.kept.2.2]

/-- Leaders stay leaders when one is widened. -/
theorem Joining.leads_set (joining : Joining leader wider access joins g)
    {accesses : List Access} (found : accesses[g]? = some leader) {k : Nat} {other : Access}
    {base' : Value} (before : accesses[k]? = some other) (leads : other.Leads base') :
    ∃ other' : Access, (accesses.set g wider ++ [joins])[k]? = some other' ∧
      other'.Leads base' := by
  by_cases here : k = g
  · subst here
    rw [found] at before
    cases before
    refine ⟨wider, getElem?_append_of_some ?_, ?_, ?_⟩
    · exact List.getElem?_set_self (List.getElem?_eq_some_iff.mp found).1
    · exact joining.same.1.trans leads.state
    · exact joining.same.2.1.trans leads.base
  · refine ⟨other, getElem?_append_of_some ?_, leads⟩
    rw [List.getElem?_set_ne (Ne.symm here)]
    exact before

theorem Inv.joined (inv : m.Inv) (joining : Joining leader wider access joins g)
    (found : m.accesses[g]? = some leader) (leads : leader.Leads base)
    (based : access.base = some base) :
    Inv ⟨m.accesses.set g wider ++ [joins], m.opened⟩ := by
  have groups (k : Nat) : mergedInto (m.accesses.set g wider) k = mergedInto m.accesses k :=
    mergedInto_set m.accesses g k found leads.state (joining.same.1.trans leads.state)
  have inside := (List.getElem?_eq_some_iff.mp found).1
  have apart {k : Nat} (other : k ≠ g) :
      mergedInto (m.accesses.set g wider ++ [joins]) k = mergedInto m.accesses k := by
    rw [mergedInto_append_other, groups]
    rintro ⟨-, same⟩
    exact other (same.symm.trans joining.joined.2)
  constructor
  · intro k other found'
    rcases getElem?_snoc_cases found' with before | ⟨rfl, rfl⟩
    · rcases getElem?_set_cases before with ⟨rfl, rfl⟩ | ⟨elsewhere, before⟩
      · have group := mergedInto_append_self (m.accesses.set k other) joining.joined.1
        rw [joining.joined.2, groups] at group
        rw [group]
        exact joining.hull_wider (inv.hull k leader found)
      · rw [apart elsewhere]
        exact inv.hull k other before
    · rw [List.length_set, apart (by omega), inv.mergedInto_length]
      exact joining.hull_joined
  · intro other mem merged
    rcases List.mem_append.mp mem with before | last
    · rcases List.mem_or_eq_of_mem_set before with old | rfl
      · obtain ⟨first, base', at', leads', based'⟩ := inv.led other old merged
        obtain ⟨first', at'', leads''⟩ := joining.leads_set found at' leads'
        exact ⟨first', base', at'', leads'', based'⟩
      · rw [joining.same.1, leads.state] at merged
        cases merged
    · rw [List.mem_singleton] at last
      subst last
      obtain ⟨first', at'', leads''⟩ := joining.leads_set found found leads
      rw [joining.joined.2]
      exact ⟨first', base, at'', leads'', joining.kept.1.trans based⟩
  · intro base' k isOpen
    obtain ⟨first, at', leads'⟩ := inv.opened base' k isOpen
    exact joining.leads_set found at' leads'

theorem Inv.mergeAccess (inv : m.Inv) (access : Access) (unmerged : access.state ≠ .merged) :
    (m.mergeAccess access).Inv := by
  have unmerged' : access.fresh.state ≠ .merged := unmerged
  have own : access.fresh.Hull [] := ⟨rfl, rfl⟩
  have ownGuard : access.fresh.guardOffset = access.fresh.offset ∧
      access.fresh.guardWidth = access.fresh.width := ⟨rfl, rfl⟩
  unfold Merging.mergeAccess
  generalize access.fresh = access at *
  dsimp only
  split
  · rename_i base isRemovable based
    have leads : access.Leads base := by
      refine ⟨?_, based⟩
      unfold removable at isRemovable
      simp only [Bool.and_eq_true, decide_eq_true_eq] at isRemovable
      exact isRemovable.1.1
    have opens : (m.opens access base).Inv := by
      refine inv.append_unmerged unmerged' own _ ?_
      intro base' g isOpen
      by_cases same : base' = base
      · subst same
        rw [Function.update_self] at isOpen
        exact .inr ⟨(Option.some.inj isOpen).symm, leads⟩
      · rw [Function.update_of_ne same] at isOpen
        exact .inl isOpen
    split
    · rename_i g isOpen
      split
      · rename_i guard found
        split
        · obtain ⟨guard', found', leads'⟩ := inv.opened base g isOpen
          rw [found] at found'
          cases found'
          generalize lowEq : signedMin guard.guardOffset access.offset = low
          generalize highEq : signedMax (guard.guardOffset + guard.guardWidth)
            (access.offset + access.width) = high
          have joining : Joining guard
              { guard with guardOffset := low, guardWidth := high - low } access
              { access with state := .merged, leader := g } g :=
            { low := lowEq.symm
              high := by rw [highEq, BitVec.add_comm, BitVec.sub_add_cancel]
              same := ⟨rfl, rfl, rfl, rfl⟩
              joined := ⟨rfl, rfl⟩
              kept := ⟨rfl, rfl, rfl⟩
              own := ownGuard }
          exact inv.joined joining found leads' based
        · exact opens
      · exact opens
    · exact opens
  · exact inv.append_unmerged unmerged' own m.opened fun base g isOpen => .inl isOpen

theorem Inv.close (inv : m.Inv) : Inv ⟨m.accesses, fun _ => none⟩ :=
  ⟨inv.hull, inv.led, fun _ _ isOpen => nomatch isOpen⟩

theorem Inv.mergeOne (inv : m.Inv) (item : Item) : (m.mergeOne item).Inv := by
  cases item with
  | access access unmerged => exact inv.mergeAccess access unmerged
  | other instruction loadOrStore transfers =>
    rw [Merging.mergeOne]
    split
    · exact inv.close
    · exact inv

theorem Inv.mergeInBlock (inv : m.Inv) (items : List Item) : (m.mergeInBlock items).Inv := by
  unfold Merging.mergeInBlock
  have start := inv.close
  generalize (⟨m.accesses, fun _ => none⟩ : Merging) = m' at *
  induction items generalizing m' with
  | nil => exact start
  | cons item items ih => exact ih _ (start.mergeOne item)

theorem inv_empty : Inv ⟨[], fun _ => none⟩ where
  hull _ _ found := nomatch found
  led _ mem := nomatch mem
  opened _ _ isOpen := nomatch isOpen

theorem inv_blocks (blocks : List (List Item)) {m : Merging} (inv : m.Inv) :
    (blocks.foldl mergeInBlock m).Inv := by
  induction blocks generalizing m with
  | nil => exact inv
  | cons block blocks ih => exact ih (inv.mergeInBlock block)

end Merging

/-- What merging makes of a group: the hull, and the base all share. -/
theorem mergeInBlocks_group (blocks : List (List Item)) {k : Nat} {leader : Access}
    (found : (mergeInBlocks blocks)[k]? = some leader) :
    leader.Hull (mergedInto (mergeInBlocks blocks) k) ∧
      ∀ access ∈ mergedInto (mergeInBlocks blocks) k, ∃ base,
        leader.Leads base ∧ access.base = some base := by
  have inv := Merging.inv_blocks blocks Merging.inv_empty
  refine ⟨inv.hull k leader found, ?_⟩
  intro access mem
  obtain ⟨mem, both⟩ := List.mem_filter.mp mem
  simp only [Bool.and_eq_true, decide_eq_true_eq] at both
  obtain ⟨leader', base, found', leads, based⟩ := inv.led access mem both.1
  have same : some leader' = some leader := by rw [← found', ← found, both.2]; rfl
  cases same
  exact ⟨base, leads, based⟩

/-! ## Checks one after another -/

/-- The check of each range, in the shadow the last left. -/
def checks (ctx : Context) (s : Shadow) (ranges : List (Nat × Nat)) : Outcome :=
  ranges.foldlM (fun s range => guardSlow ctx s range.1 range.2) s

theorem checks_cons (ctx : Context) (s : Shadow) (range : Nat × Nat) (ranges : List (Nat × Nat)) :
    checks ctx s (range :: ranges) =
      (guardSlow ctx s range.1 range.2).bind fun s' => checks ctx s' ranges :=
  rfl

theorem checks_passes (ctx : Context) (ranges : List (Nat × Nat)) (s : Shadow) :
    (checks ctx s ranges).passes = true ↔
      ∀ range ∈ ranges, unaddressable ctx s (reached ctx s range.1) range.2 = ∅ := by
  induction ranges generalizing s with
  | nil => exact iff_of_true rfl fun _ mem => nomatch mem
  | cons range ranges ih =>
    rw [checks_cons, List.forall_mem_cons, ← guardSlow_passes]
    cases first : guardSlow ctx s range.1 range.2 with
    | error r => simp [Except.bind]
    | ok s' =>
      have same := guardSlow_settles first
      simp only [Except.bind, Outcome.passes_ok, true_and, ih, same.unaddressable_reached]

theorem guardSlow_error {ctx : Context} {s : Shadow} {address n : Nat} {r : Report}
    (stopped : guardSlow ctx s address n = .error r) : r.width ≠ 0 := by
  unfold guardSlow at stopped
  have empty : n = 0 → firstUnaddressable ctx s address n = (none, s) := by
    intro zero
    rw [firstUnaddressable, if_pos (.inl zero)]
  generalize firstUnaddressable ctx s address n = found at *
  rcases found with ⟨_ | ⟨bad, v⟩, s'⟩
  · cases stopped
  · cases stopped
    intro zero
    cases empty zero

theorem checks_error {ctx : Context} {ranges : List (Nat × Nat)} {s : Shadow} {r : Report}
    (stopped : checks ctx s ranges = .error r) : r.width ≠ 0 := by
  induction ranges generalizing s with
  | nil => cases stopped
  | cons range ranges ih =>
    rw [checks_cons] at stopped
    cases first : guardSlow ctx s range.1 range.2 with
    | error r' =>
      rw [first] at stopped
      cases stopped
      exact guardSlow_error first
    | ok s' =>
      rw [first] at stopped
      exact ih stopped

/-! ## A group -/

/-- A run that the guard of a group stops is stopped by the member whose guard
stops it first; the null test of the group is its leader's. -/
def Agrees (merged separately leader : Outcome) : Prop :=
  match merged, separately with
  | .ok _, .ok _ => True
  | .error r, .error r' => if r.width = 0 then leader = .error r' else r = r'
  | _, _ => False

section

variable {accesses : List Access} (run : Run accesses) (ctx : Context) (little : Bool) (k : Nat)
  (leader : Access)

def group (accesses : List Access) (k : Nat) (leader : Access) : List Access :=
  leader :: mergedInto accesses k

def Preserves : Prop :=
  ∀ s, Agrees (expand run ctx little k leader s) (separately run ctx little k leader s)
    (leader.guard run ctx little s)

def hullStart : Nat :=
  (run.env leader.pointer +
    (hullLow leader (mergedInto accesses k) - leader.offset)).toNat

def hullWidth (accesses : List Access) (k : Nat) (leader : Access) : Nat :=
  (hullHigh leader (mergedInto accesses k) - hullLow leader (mergedInto accesses k)).toNat

/-- The hull is more than the leader's own bytes. -/
def Grown (accesses : List Access) (k : Nat) (leader : Access) : Prop :=
  hullLow leader (mergedInto accesses k) ≠ leader.offset ∨
    hullHigh leader (mergedInto accesses k) - hullLow leader (mergedInto accesses k) ≠ leader.width

instance : Decidable (Grown accesses k leader) :=
  inferInstanceAs (Decidable (_ ∨ _))

/-- A null test that a guard on its own makes, and that fails. -/
def OwnNull (access : Access) : Prop :=
  NullTested little access.width.toNat ∧ nullTest run.env access.nullBase = true

/-- The null test of the group fails. -/
def GroupNull : Prop :=
  NullTested little (if Grown accesses k leader then hullWidth accesses k leader
    else leader.width.toNat) ∧ nullTest run.env leader.nullBase = true

/-- The bytes the guard of the group covers: all where it checks each member. -/
def Covers (b : Nat) : Prop :=
  if Grown accesses k leader then
    hullWidth accesses k leader ≠ 0 ∧ ¬ NullTested little (hullWidth accesses k leader) ∨
      HullCovers little (hullStart run k leader) (hullWidth accesses k leader) b
  else OwnCovers ctx (run.env leader.pointer).toNat leader.width.toNat leader.alignment b

/-- When a null test fails, the group's and its leader's do; else the guard of
the group covers what its members decide. -/
def Condition : Prop :=
  ((GroupNull run little k leader ∨ ∃ access ∈ group accesses k leader, OwnNull run little access) →
      GroupNull run little k leader ∧ OwnNull run little leader) ∧
    ((¬ GroupNull run little k leader ∧ ¬ OwnNull run little leader) →
      ∀ access ∈ group accesses k leader, ∀ b < 2 ^ 56,
        Decides ctx (run.env access.pointer).toNat access.width.toNat b →
          Covers run ctx little k leader b)

variable {run ctx little k leader}

theorem guard_of_notNull {access : Access} (notNull : ¬ OwnNull run little access) (s : Shadow) :
    access.guard run ctx little s =
      guardSlow ctx s (run.env access.pointer).toNat access.width.toNat := by
  rw [Access.guard]
  exact if_neg notNull

variable (ctx) in
theorem guard_of_null {access : Access} (null : OwnNull run little access) (s : Shadow) :
    access.guard run ctx little s =
      .error ⟨.nullDereference, (run.env access.pointer).toNat, 0⟩ := by
  rw [Access.guard]
  exact if_pos null

/-- The bytes of an access. -/
def Access.bytes (run : Run accesses) (access : Access) : Nat × Nat :=
  ((run.env access.pointer).toNat, access.width.toNat)

theorem separately_of_notNull
    (notNull : ∀ access ∈ group accesses k leader, ¬ OwnNull run little access) (s : Shadow) :
    separately run ctx little k leader s =
      checks ctx s ((group accesses k leader).map (Access.bytes run)) := by
  unfold separately checks
  rw [List.foldlM_map]
  change List.foldlM _ s (group accesses k leader) = _
  generalize group accesses k leader = all at *
  induction all generalizing s with
  | nil => rfl
  | cons access rest ih =>
    rw [List.foldlM_cons, List.foldlM_cons, guard_of_notNull (notNull access List.mem_cons_self)]
    refine congrArg _ (funext fun s' => ?_)
    exact ih s' fun other mem => notNull other (List.mem_cons_of_mem _ mem)

/-- Where the leader's own guard stops a run, so do the guards of the group. -/
theorem separately_of_leader {s : Shadow} {r : Report}
    (stopped : leader.guard run ctx little s = .error r) :
    separately run ctx little k leader s = .error r := by
  unfold separately
  rw [List.foldlM_cons, stopped]
  rfl

/-- What a group is, for the accesses that merging leaves. -/
structure Grouped (run : Run accesses) (k : Nat) (leader : Access) : Prop where
  found : accesses[k]? = some leader
  hull : leader.Hull (mergedInto accesses k)
  based : ∀ access ∈ mergedInto accesses k, ∃ base,
    leader.Leads base ∧ access.base = some base
  merges : mergedInto accesses k ≠ []

theorem Grouped.leads (grouped : Grouped run k leader) : ∃ base, leader.base = some base ∧
    ∀ access ∈ group accesses k leader, access ∈ accesses ∧ access.base = some base := by
  obtain ⟨first, mem⟩ := List.exists_mem_of_ne_nil _ grouped.merges
  obtain ⟨base, leads, -⟩ := grouped.based first mem
  refine ⟨base, leads.base, ?_⟩
  intro access mem
  rcases List.mem_cons.mp mem with rfl | mem
  · exact ⟨List.mem_of_getElem? grouped.found, leads.base⟩
  · obtain ⟨base', leads', based⟩ := grouped.based access mem
    have same : some base' = some base := by rw [← leads'.base, leads.base]
    rw [← same]
    exact ⟨(List.mem_filter.mp mem).1, based⟩

theorem slowGuard_of_ne {env : Env} {s : Shadow} {address width : Nat} {members : List Member}
    (some : members ≠ []) :
    slowGuard ctx env s address width members = members.foldlM
      (fun s member => guardSlow ctx s (env member.pointer).toNat member.width) s := by
  cases members with
  | nil => exact absurd rfl some
  | cons first rest => rfl

theorem Grouped.slowGuard_members (grouped : Grouped run k leader) (s : Shadow)
    (address width : Nat) :
    slowGuard ctx run.env s address width (members run k leader) =
      checks ctx s ((group accesses k leader).map (Access.bytes run)) := by
  obtain ⟨base, -, each⟩ := grouped.leads
  have listed : members run k leader = (group accesses k leader).map fun access =>
      ⟨run.gep access access.offset, access.width.toNat⟩ := by
    unfold members group
    cases merged : mergedInto accesses k with
    | nil => exact absurd merged grouped.merges
    | cons first rest => rfl
  have same : ∀ access ∈ group accesses k leader,
      run.env (run.gep access access.offset) = run.env access.pointer := by
    intro access mem
    obtain ⟨mem', based⟩ := each access mem
    rw [run.gep_eq access base _ based, run.pointer_eq access mem' base based]
  have nonempty : group accesses k leader ≠ [] := List.cons_ne_nil _ _
  rw [listed, slowGuard_of_ne (by simpa using nonempty), checks, List.foldlM_map, List.foldlM_map]
  generalize group accesses k leader = all at same
  induction all generalizing s with
  | nil => rfl
  | cons access rest ih =>
    rw [List.foldlM_cons, List.foldlM_cons, same access List.mem_cons_self]
    refine congrArg _ (funext fun s' => ?_)
    exact ih s' fun other mem => same other (List.mem_cons_of_mem _ mem)

/-! ## The guard of a group -/

theorem Grouped.guardWidth (grouped : Grouped run k leader) :
    leader.guardWidth =
      hullHigh leader (mergedInto accesses k) - hullLow leader (mergedInto accesses k) := by
  rw [← grouped.hull.high, ← grouped.hull.low, BitVec.add_comm, BitVec.add_sub_cancel]

theorem Grouped.grown_iff (grouped : Grouped run k leader) :
    (leader.guardOffset ≠ leader.offset ∨ leader.guardWidth ≠ leader.width) ↔
      Grown accesses k leader := by
  rw [grouped.guardWidth, grouped.hull.low]
  rfl

theorem Grouped.start (grouped : Grouped run k leader) :
    (run.env (run.gep leader leader.guardOffset)).toNat = hullStart run k leader := by
  obtain ⟨base, based, each⟩ := grouped.leads
  have mem := (each leader List.mem_cons_self).1
  rw [hullStart, run.gep_eq leader base _ based, run.pointer_eq leader mem base based,
    grouped.hull.low, BitVec.add_assoc, BitVec.add_comm leader.offset, BitVec.sub_add_cancel]

theorem Grouped.expand_grown (grouped : Grouped run k leader) (grown : Grown accesses k leader)
    (s : Shadow) :
    expand run ctx little k leader s =
      emitGuard ctx run.env s little (run.gep leader leader.guardOffset)
        (hullWidth accesses k leader) ⟨0⟩ leader.nullBase (members run k leader) none := by
  rw [expand, if_pos (grouped.grown_iff.mpr grown), hullWidth, grouped.guardWidth]

theorem Grouped.expand_own (grouped : Grouped run k leader) (same : ¬ Grown accesses k leader)
    (s : Shadow) :
    expand run ctx little k leader s =
      emitGuard ctx run.env s little leader.pointer leader.width.toNat leader.alignment
        leader.nullBase [] none := by
  rw [expand, if_neg (grouped.grown_iff.not.mpr same)]

theorem Grouped.members_ne (grouped : Grouped run k leader) : members run k leader ≠ [] := by
  unfold members
  cases merged : mergedInto accesses k with
  | nil => exact absurd merged grouped.merges
  | cons first rest => exact List.cons_ne_nil _ _

theorem Grouped.expand_checked (grouped : Grouped run k leader) (grown : Grown accesses k leader)
    (nonempty : hullWidth accesses k leader ≠ 0)
    (untested : ¬ NullTested little (hullWidth accesses k leader)) (s : Shadow) :
    expand run ctx little k leader s =
      checks ctx s ((group accesses k leader).map (Access.bytes run)) := by
  have long : 113 < hullWidth accesses k leader ∨
      little = false ∧ 16 < hullWidth accesses k leader := by
    by_contra short
    rw [not_or] at short
    refine untested ⟨nonempty, by omega, ?_⟩
    cases little with
    | true => exact .inl rfl
    | false => exact .inr (Nat.le_of_not_lt fun far => short.2 ⟨rfl, far⟩)
  rw [grouped.expand_grown grown]
  simp only [emitGuard, if_neg nonempty, bind, Except.bind, if_pos long,
    if_neg grouped.members_ne, grouped.slowGuard_members]

open Classical in
theorem Grouped.expand_inline (grouped : Grouped run k leader) (grown : Grown accesses k leader)
    (tested : NullTested little (hullWidth accesses k leader)) (s : Shadow) :
    expand run ctx little k leader s =
      if nullTest run.env leader.nullBase = true then
        .error ⟨.nullDereference, hullStart run k leader, 0⟩
      else if Quick s little (hullStart run k leader) (hullWidth accesses k leader) then .ok s
      else checks ctx s ((group accesses k leader).map (Access.bytes run)) := by
  rw [grouped.expand_grown grown, emitGuard_hull tested, grouped.start,
    grouped.slowGuard_members]

theorem Grouped.expand_empty (grouped : Grouped run k leader) (grown : Grown accesses k leader)
    (empty : hullWidth accesses k leader = 0) (s : Shadow) :
    expand run ctx little k leader s = .ok s := by
  rw [grouped.expand_grown grown, emitGuard, if_pos empty]

variable (ctx) in
/-- Where the null test of a group fails, it stops every run. -/
theorem Grouped.expand_null (grouped : Grouped run k leader) (null : GroupNull run little k leader)
    (s : Shadow) : ∃ address,
      expand run ctx little k leader s = .error ⟨.nullDereference, address, 0⟩ := by
  obtain ⟨tested, null⟩ := null
  by_cases grown : Grown accesses k leader
  · rw [if_pos grown] at tested
    rw [grouped.expand_inline grown tested, if_pos null]
    exact ⟨_, rfl⟩
  · rw [if_neg grown] at tested
    rw [grouped.expand_own grown, emitGuard_null tested null]
    exact ⟨_, rfl⟩

variable (ctx) in
/-- Where no null test fails, the guard of a group lets a run through or does
what the checks of the members do. -/
theorem Grouped.expand_cases (grouped : Grouped run k leader)
    (notNull : ¬ GroupNull run little k leader) (s : Shadow) :
    (∃ s', expand run ctx little k leader s = .ok s') ∨
      expand run ctx little k leader s =
        checks ctx s ((group accesses k leader).map (Access.bytes run)) ∨
      ¬ Grown accesses k leader ∧ ∃ r, expand run ctx little k leader s = .error r ∧
        guardSlow ctx s (run.env leader.pointer).toNat leader.width.toNat = .error r := by
  by_cases grown : Grown accesses k leader
  · by_cases empty : hullWidth accesses k leader = 0
    · exact .inl ⟨s, grouped.expand_empty grown empty s⟩
    by_cases tested : NullTested little (hullWidth accesses k leader)
    · have fine : ¬ nullTest run.env leader.nullBase = true := by
        intro null
        refine notNull ⟨?_, null⟩
        rw [if_pos grown]
        exact tested
      rw [grouped.expand_inline grown tested, if_neg fine]
      split
      · exact .inl ⟨s, rfl⟩
      · exact .inr (.inl rfl)
    · exact .inr (.inl (grouped.expand_checked grown empty tested s))
  · rw [grouped.expand_own grown]
    cases result : emitGuard ctx run.env s little leader.pointer leader.width.toNat
      leader.alignment leader.nullBase [] none with
    | ok s' => exact .inl ⟨s', rfl⟩
    | error r =>
      rcases emitGuard_error result with ⟨tested, null, -⟩ | ⟨-, stopped⟩
      · refine absurd ⟨?_, null⟩ notNull
        rw [if_neg grown]
        exact tested
      · exact .inr (.inr ⟨grown, r, rfl, stopped⟩)

/-- Where the guard of a group lets a run through, what it covers is
addressable, or the checks of the members pass. -/
theorem Grouped.covered (grouped : Grouped run k leader) {s : Shadow} (ready : s.Ready)
    (passes : (expand run ctx little k leader s).passes = true) :
    (checks ctx s ((group accesses k leader).map (Access.bytes run))).passes = true ∨
      ∀ b < 2 ^ s.bits, Covers run ctx little k leader b → Addressable ctx s b := by
  by_cases grown : Grown accesses k leader
  · by_cases empty : hullWidth accesses k leader = 0
    · right
      intro b inside covers
      rw [Covers, if_pos grown] at covers
      rcases covers with ⟨nonempty, -⟩ | ⟨nonempty, -⟩
      · exact absurd empty nonempty
      · exact absurd empty nonempty
    by_cases tested : NullTested little (hullWidth accesses k leader)
    · rw [grouped.expand_inline grown tested] at passes
      split at passes
      · cases passes
      split at passes
      · rename_i quick
        right
        intro b inside covers
        rw [Covers, if_pos grown] at covers
        rcases covers with ⟨-, untested⟩ | covers
        · exact absurd tested untested
        · exact quick.covers ready covers inside
      · exact .inl passes
    · rw [grouped.expand_checked grown empty tested] at passes
      exact .inl passes
  · rw [grouped.expand_own grown] at passes
    right
    intro b inside covers
    rw [Covers, if_neg grown] at covers
    exact emitGuard_covers ready passes covers inside

/-- Where no hull covers a byte, a run passes that meets only that byte. -/
theorem Grouped.stopsAt_passes (grouped : Grouped run k leader)
    (notNull : ¬ GroupNull run little k leader) {b : Nat} (inside : b < 2 ^ 56)
    (apart : ¬ Covers run ctx little k leader b) :
    (expand run ctx little k leader (stopsAt b)).passes = true := by
  unfold Covers at apart
  by_cases grown : Grown accesses k leader
  · rw [if_pos grown, not_or] at apart
    by_cases empty : hullWidth accesses k leader = 0
    · rw [grouped.expand_empty grown empty]
      rfl
    · have tested : NullTested little (hullWidth accesses k leader) :=
        not_not.mp fun untested => apart.1 ⟨empty, untested⟩
      have fine : ¬ nullTest run.env leader.nullBase = true := by
        intro null
        refine notNull ⟨?_, null⟩
        rw [if_pos grown]
        exact tested
      have small : hullStart run k leader < 2 ^ 64 := BitVec.isLt _
      rw [grouped.expand_inline grown tested, if_neg fine,
        if_pos (quick_stopsAt small empty inside apart.2)]
      rfl
  · rw [if_neg grown] at apart
    rw [grouped.expand_own grown]
    refine emitGuard_stopsAt (fun tested => ?_) apart
    rw [← Bool.not_eq_true]
    intro null
    refine notNull ⟨?_, null⟩
    rw [if_neg grown]
    exact tested

/-! ## Merging preserves meaning -/

/-- No member's guard stops a run where what it decides is addressable. -/
theorem checks_of_addressable {s : Shadow}
    (all : s.Ready → ∀ access ∈ group accesses k leader, ∀ b < 2 ^ s.bits,
      Decides ctx (run.env access.pointer).toNat access.width.toNat b → Addressable ctx s b) :
    (checks ctx s ((group accesses k leader).map (Access.bytes run))).passes = true := by
  rw [checks_passes]
  intro range mem
  obtain ⟨access, mem', rfl⟩ := List.mem_map.mp mem
  by_cases ready : s.Ready
  · rw [unaddressable_reached_empty ready]
    intro b decides inside
    exact all ready access mem' b inside decides
  · exact unaddressable_empty fun isReady => absurd isReady ready

theorem Grouped.preserves_of_condition (grouped : Grouped run k leader)
    (condition : Condition run ctx little k leader) : Preserves run ctx little k leader := by
  intro s
  obtain ⟨nulls, covered⟩ := condition
  by_cases null : GroupNull run little k leader
  · obtain ⟨address, stopped⟩ := grouped.expand_null ctx null s
    have own := guard_of_null ctx (nulls (.inl null)).2 s
    rw [stopped, separately_of_leader own, own]
    rfl
  have none : ∀ access ∈ group accesses k leader, ¬ OwnNull run little access :=
    fun access mem own => null (nulls (.inr ⟨access, mem, own⟩)).1
  have bytes := covered ⟨null, none leader List.mem_cons_self⟩
  rw [separately_of_notNull none]
  rcases grouped.expand_cases ctx null s with ⟨s', passed⟩ | same | ⟨-, r, stopped, own⟩
  · have passes : (checks ctx s ((group accesses k leader).map (Access.bytes run))).passes = true := by
      by_cases ready : s.Ready
      · have through : (expand run ctx little k leader s).passes = true := by
          rw [passed]
          rfl
        rcases grouped.covered ready through with direct | all
        · exact direct
        · refine checks_of_addressable fun _ access mem b inside decides => ?_
          have window : 2 ^ s.bits ≤ 2 ^ 56 :=
            Nat.pow_le_pow_right (by decide) ready.bounds.2.2
          exact all b inside (bytes access mem b (by omega) decides)
      · exact checks_of_addressable fun isReady => absurd isReady ready
    obtain ⟨s'', found⟩ := ok_of_passes passes
    rw [passed, found]
    exact trivial
  · rw [same]
    cases result : checks ctx s ((group accesses k leader).map (Access.bytes run)) with
    | ok s' => exact trivial
    | error r =>
      show if r.width = 0 then _ else r = r
      rw [if_neg (checks_error result)]
  · have first : checks ctx s ((group accesses k leader).map (Access.bytes run)) = .error r := by
      rw [group, List.map_cons, checks_cons, Access.bytes, own]
      rfl
    rw [stopped, first]
    show if r.width = 0 then _ else r = r
    rw [if_neg (checks_error first)]

/-- Nothing a check decides is poison. -/
theorem stopsAt_far (ctx : Context) (address n : Nat) :
    (guardSlow ctx (stopsAt (2 ^ 57)) address n).passes = true := by
  rw [guardSlow_passes, unaddressable_reached_empty (stopsAt_ready _)]
  intro b _ inside
  refine (stopsAt_addressable ctx inside).mpr fun both => ?_
  change b < 2 ^ 56 at inside
  omega

theorem ownNull_of_error {access : Access} {r : Report}
    (stopped : access.guard run ctx little (stopsAt (2 ^ 57)) = .error r) :
    OwnNull run little access := by
  by_contra notNull
  have passes := stopsAt_far ctx (run.env access.pointer).toNat access.width.toNat
  rw [← guard_of_notNull notNull, stopped] at passes
  cases passes

variable (ctx) in
/-- A null test that fails stops the guards of the group. -/
theorem separately_of_ownNull {access : Access} (mem : access ∈ group accesses k leader)
    (null : OwnNull run little access) (s : Shadow) :
    ∃ r, separately run ctx little k leader s = .error r := by
  unfold separately
  change ∃ r, List.foldlM _ s (group accesses k leader) = _
  generalize group accesses k leader = all at mem
  induction all generalizing s with
  | nil => cases mem
  | cons first rest ih =>
    rw [List.foldlM_cons]
    cases result : first.guard run ctx little s with
    | error r => exact ⟨r, rfl⟩
    | ok s' =>
      rcases List.mem_cons.mp mem with rfl | later
      · rw [guard_of_null ctx null] at result
        cases result
      · exact ih s' later

theorem Agrees.passes_iff {merged separate own : Outcome} (agrees : Agrees merged separate own) :
    merged.passes = true ↔ separate.passes = true := by
  cases merged with
  | ok s =>
    cases separate with
    | ok s' => exact iff_of_true rfl rfl
    | error r => exact agrees.elim
  | error r =>
    cases separate with
    | ok s' => exact agrees.elim
    | error r' => exact iff_of_false Bool.false_ne_true Bool.false_ne_true

theorem Grouped.leader_of_groupNull (grouped : Grouped run k leader)
    (preserves : Preserves run ctx little k leader) (null : GroupNull run little k leader) :
    OwnNull run little leader := by
  have agrees := preserves (stopsAt (2 ^ 57))
  obtain ⟨address, stopped⟩ := grouped.expand_null ctx null (stopsAt (2 ^ 57))
  rw [stopped] at agrees
  cases result : separately run ctx little k leader (stopsAt (2 ^ 57)) with
  | ok s' =>
    rw [result] at agrees
    exact agrees.elim
  | error r =>
    rw [result] at agrees
    exact ownNull_of_error agrees

theorem Grouped.groupNull_of_member (grouped : Grouped run k leader)
    (preserves : Preserves run ctx little k leader) {access : Access}
    (mem : access ∈ group accesses k leader) (null : OwnNull run little access) :
    GroupNull run little k leader := by
  by_contra notNull
  have same := (preserves (stopsAt (2 ^ 57))).passes_iff
  obtain ⟨r, stopped⟩ := separately_of_ownNull ctx mem null (stopsAt (2 ^ 57))
  have fine : (checks ctx (stopsAt (2 ^ 57))
      ((group accesses k leader).map (Access.bytes run))).passes = true := by
    rw [checks_passes]
    intro range _
    rw [← guardSlow_passes]
    exact stopsAt_far ctx range.1 range.2
  have passes : (expand run ctx little k leader (stopsAt (2 ^ 57))).passes = true := by
    rcases grouped.expand_cases ctx notNull (stopsAt (2 ^ 57)) with
      ⟨s', passed⟩ | same | ⟨-, r, -, own⟩
    · rw [passed]
      rfl
    · rw [same]
      exact fine
    · have first := stopsAt_far ctx (run.env leader.pointer).toNat leader.width.toNat
      rw [own] at first
      cases first
  rw [same, stopped] at passes
  cases passes

theorem Grouped.condition_of_preserves (grouped : Grouped run k leader)
    (preserves : Preserves run ctx little k leader) : Condition run ctx little k leader := by
  constructor
  · rintro (null | ⟨access, mem, null⟩)
    · exact ⟨null, grouped.leader_of_groupNull preserves null⟩
    · have group := grouped.groupNull_of_member preserves mem null
      exact ⟨group, grouped.leader_of_groupNull preserves group⟩
  · rintro ⟨notNull, -⟩ access mem b inside decides
    have none : ∀ access ∈ group accesses k leader, ¬ OwnNull run little access :=
      fun access mem own => notNull (grouped.groupNull_of_member preserves mem own)
    by_contra apart
    have passes := (preserves (stopsAt b)).passes_iff.mp
      (grouped.stopsAt_passes notNull inside apart)
    rw [separately_of_notNull none, checks_passes] at passes
    have empty := passes _ (List.mem_map_of_mem mem)
    rw [unaddressable_reached_empty (stopsAt_ready b)] at empty
    exact (stopsAt_addressable ctx inside).mp (empty b decides inside) ⟨rfl, Nat.le_refl _⟩

/-- The groups that merging makes. -/
theorem grouped_of_blocks {blocks : List (List Item)} {run : Run (mergeInBlocks blocks)}
    (found : (mergeInBlocks blocks)[k]? = some leader)
    (merges : mergedInto (mergeInBlocks blocks) k ≠ []) : Grouped run k leader where
  found := found
  hull := (mergeInBlocks_group blocks found).1
  based := (mergeInBlocks_group blocks found).2
  merges := merges

end

theorem signedMin_le (a b : BitVec 64) :
    (signedMin a b).toInt ≤ a.toInt ∧ (signedMin a b).toInt ≤ b.toInt := by
  unfold signedMin
  split
  · rename_i less
    rw [BitVec.slt_eq_decide, decide_eq_true_eq] at less
    omega
  · rename_i notLess
    rw [BitVec.slt_eq_decide, decide_eq_true_eq] at notLess
    omega

theorem le_signedMax (a b : BitVec 64) :
    a.toInt ≤ (signedMax a b).toInt ∧ b.toInt ≤ (signedMax a b).toInt := by
  unfold signedMax
  split
  · rename_i less
    rw [BitVec.slt_eq_decide, decide_eq_true_eq] at less
    omega
  · rename_i notLess
    rw [BitVec.slt_eq_decide, decide_eq_true_eq] at notLess
    omega

theorem foldl_signedMin_le {α : Type} (f : α → BitVec 64) (xs : List α) (start : BitVec 64) :
    (xs.foldl (fun low x => signedMin low (f x)) start).toInt ≤ start.toInt ∧
      ∀ x ∈ xs, (xs.foldl (fun low x => signedMin low (f x)) start).toInt ≤ (f x).toInt := by
  induction xs generalizing start with
  | nil => exact ⟨Int.le_refl _, fun x mem => nomatch mem⟩
  | cons y ys ih =>
    obtain ⟨below, each⟩ := ih (signedMin start (f y))
    obtain ⟨left, right⟩ := signedMin_le start (f y)
    refine ⟨Int.le_trans below left, fun x mem => ?_⟩
    rcases List.mem_cons.mp mem with rfl | later
    · exact Int.le_trans below right
    · exact each x later

theorem le_foldl_signedMax {α : Type} (f : α → BitVec 64) (xs : List α) (start : BitVec 64) :
    start.toInt ≤ (xs.foldl (fun high x => signedMax high (f x)) start).toInt ∧
      ∀ x ∈ xs, (f x).toInt ≤ (xs.foldl (fun high x => signedMax high (f x)) start).toInt := by
  induction xs generalizing start with
  | nil => exact ⟨Int.le_refl _, fun x mem => nomatch mem⟩
  | cons y ys ih =>
    obtain ⟨above, each⟩ := ih (signedMax start (f y))
    obtain ⟨left, right⟩ := le_signedMax start (f y)
    refine ⟨Int.le_trans left above, fun x mem => ?_⟩
    rcases List.mem_cons.mp mem with rfl | later
    · exact Int.le_trans right above
    · exact each x later

/-- Every member lies between the bounds of its group. -/
theorem group_bounds {accesses : List Access} {k : Nat} {leader access : Access}
    (mem : access ∈ group accesses k leader) :
    (hullLow leader (mergedInto accesses k)).toInt ≤ access.offset.toInt ∧
      (access.offset + access.width).toInt ≤ (hullHigh leader (mergedInto accesses k)).toInt := by
  obtain ⟨low, lows⟩ := foldl_signedMin_le Access.offset (mergedInto accesses k) leader.offset
  obtain ⟨high, highs⟩ := le_foldl_signedMax (fun access => access.offset + access.width)
    (mergedInto accesses k) (leader.offset + leader.width)
  rcases List.mem_cons.mp mem with rfl | merged
  · exact ⟨low, high⟩
  · exact ⟨lows access merged, highs access merged⟩

/-- A group whose ends do not wrap, whose hull is under one top byte, whose
bases are not null and whose leader is aligned. -/
structure Plain {accesses : List Access} (run : Run accesses) (k : Nat) (leader : Access) :
    Prop where
  ends : ∀ access ∈ group accesses k leader,
    access.offset.toInt + access.width.toNat < 0x8000000000000000
  top : hullStart run k leader % 2 ^ 56 + hullWidth accesses k leader ≤ 2 ^ 56
  notNull : ∀ access ∈ group accesses k leader, nullTest run.env access.nullBase = false
  aligned : (run.env leader.pointer).toNat % leader.alignment.value = 0

/-- An offset between the bounds of a hull, as the address in it. -/
theorem place_of_bounds (base low high offset width : BitVec 64)
    (above : low.toInt ≤ offset.toInt) (below : (offset + width).toInt ≤ high.toInt)
    (fits : offset.toInt + width.toNat < 0x8000000000000000) :
    ∃ d, d + width.toNat ≤ (high - low).toNat ∧
      (base + offset).toNat = ((base + low).toNat + d) % 2 ^ 64 := by
  have stop := BitVec.toInt_eq_toNat_cond (offset + width)
  have signed := BitVec.toInt_eq_toNat_cond offset
  have least := BitVec.toInt_eq_toNat_cond low
  have most := BitVec.toInt_eq_toNat_cond high
  have offsetBound := offset.isLt
  have lowBound := low.isLt
  have highBound := high.isLt
  rw [BitVec.toNat_add] at stop
  rw [BitVec.toNat_sub, BitVec.toNat_add, BitVec.toNat_add]
  refine ⟨(offset.toInt - low.toInt).toNat, ?_, ?_⟩
  · split_ifs at stop signed least most <;> omega
  · split_ifs at signed least <;> omega

/-- The place of a member in its hull. -/
theorem Plain.place {accesses : List Access} {run : Run accesses} {k : Nat}
    {leader access : Access} (grouped : Grouped run k leader) (plain : Plain run k leader)
    (mem : access ∈ group accesses k leader) :
    ∃ d, d + access.width.toNat ≤ hullWidth accesses k leader ∧
      (run.env access.pointer).toNat = (hullStart run k leader + d) % 2 ^ 64 := by
  obtain ⟨base, based, each⟩ := grouped.leads
  obtain ⟨low, high⟩ := group_bounds mem
  have start : hullStart run k leader =
      (run.env base + hullLow leader (mergedInto accesses k)).toNat := by
    rw [← grouped.start, run.gep_eq leader base _ based, grouped.hull.low]
  rw [run.pointer_eq access (each access mem).1 base (each access mem).2, start]
  exact place_of_bounds _ _ _ _ _ low high (plain.ends access mem)

theorem Plain.condition {accesses : List Access} {run : Run accesses} {k : Nat}
    {leader : Access} (grouped : Grouped run k leader) (plain : Plain run k leader)
    (ctx : Context) (little : Bool) : Condition run ctx little k leader := by
  constructor
  · rintro (⟨-, null⟩ | ⟨access, mem, -, null⟩)
    · rw [plain.notNull leader List.mem_cons_self] at null
      cases null
    · rw [plain.notNull access mem] at null
      cases null
  · intro _ access mem b inside decides
    obtain ⟨d, within, address⟩ := plain.place grouped mem
    have top := plain.top
    have small : hullStart run k leader < 2 ^ 64 := BitVec.isLt _
    unfold Decides at decides
    rw [address] at decides
    unfold Covers
    split
    · right
      have first := hardware_mod ctx ((hullStart run k leader + d) % 2 ^ 64)
      have lower := hardware_le ctx ((hullStart run k leader + d) % 2 ^ 64)
      unfold HullCovers
      dsimp only
      omega
    · rename_i same
      rw [Grown, not_or, not_ne_iff, not_ne_iff] at same
      have start : hullStart run k leader = (run.env leader.pointer).toNat := by
        rw [hullStart, same.1, BitVec.sub_self, BitVec.add_zero]
      have width : hullWidth accesses k leader = leader.width.toNat := by
        rw [hullWidth, same.2]
      rw [start] at decides top small
      rw [width] at within top
      have mod := hardware_mod ctx (run.env leader.pointer).toNat
      have fits : OneGranule leader.width.toNat leader.alignment →
          (run.env leader.pointer).toNat % 16 + leader.width.toNat ≤ 16 :=
        fun one => one.fits plain.aligned
      unfold OwnCovers
      unfold hardware at *
      dsimp only
      split_ifs at * with arm
      · refine ⟨by omega, by omega, by omega, fun one => ?_⟩
        have := fits one
        omega
      · refine ⟨by omega, by omega, by omega, fun one => ?_⟩
        have := fits one
        omega

/-! A guard of 8 bytes and one after it at the same base. -/

def anAccess (width : BitVec 64) (offset : BitVec 64) : Access where
  constant := true
  state := .guard
  pointer := if offset = 0#64 then 0 else 1
  width := width
  alignment := ⟨0⟩
  nullBase := none
  base := some 0
  offset := offset
  guardOffset := 0#64
  guardWidth := 0#64
  leader := 0

def twoBlocks (width offset : BitVec 64) : List (List Item) :=
  [[.access (anAccess 8#64 0#64) nofun, .access (anAccess width offset) nofun]]

def twoEnv (offset : BitVec 64) : Env
  | 0 => 0x1000#64
  | 1 => 0x1000#64 + offset
  | v + 2 => BitVec.ofNat 64 v

/-- A run with the base at 4096. -/
def twoRun (width offset : BitVec 64)
    (pointers : ∀ access ∈ mergeInBlocks (twoBlocks width offset), access.base = some 0 ∧
      twoEnv offset access.pointer = 0x1000#64 + access.offset) :
    Run (mergeInBlocks (twoBlocks width offset)) where
  env := twoEnv offset
  gep access by' := ((access.base.elim 0#64 (twoEnv offset)) + by').toNat + 2
  gep_eq access base by' based := by
    rw [based]
    exact BitVec.ofNat_toNat ..
  pointer_eq access mem base based := by
    obtain ⟨same, pointer⟩ := pointers access mem
    rw [same] at based
    cases based
    exact pointer

end WeaveC.Pass.Merge
