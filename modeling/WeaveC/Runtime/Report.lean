import WeaveC.Library.Probing
import WeaveC.Library.Transition

/-!
# One report for a site

Under `-fweavec-checks=report` a failed check is reported once for its site.
`firstReport` puts the site's hash into a table with atomic loads and
exchanges; any number of calls run at once, and a state lies between two of
their atomic operations.
-/

namespace WeaveC.Runtime

open WeaveC.Library WeaveC.Library.Probing

def SiteSlots : Nat := 4096

theorem siteSlots_pos : 0 < SiteSlots := by decide

/-! ## The hash of a site -/

/-- The bytes of a text, up to its terminator. -/
abbrev CString := List UInt8

def hashByte (hash : UInt64) (byte : UInt8) : UInt64 := (hash ^^^ byte.toUInt64) * 1099511628211

/-- `hashText`; no text is the empty one. -/
def hashText (hash : UInt64) (text : Option CString) : UInt64 :=
  (((text.getD []).foldl hashByte hash) ^^^ 0xff) * 1099511628211

/-- The hash of a site; 0 marks a free slot. -/
abbrev SiteHash := { hash : UInt64 // hash ≠ 0 }

theorem one_site : (1 : UInt64) ≠ 0 := by decide

def siteHash (check file : Option CString) (line column : UInt32) : SiteHash :=
  let hash := hashText 14695981039346656037 check
  let hash := hashText hash file
  let hash := (hash ^^^ line.toUInt64) * 1099511628211
  let hash := (hash ^^^ column.toUInt64) * 1099511628211
  if zero : hash = 0 then ⟨1, one_site⟩ else ⟨hash, zero⟩

/-! ## The table -/

/-- The slot of a probe. -/
def siteSlot (hash : UInt64) (probe : Nat) : Fin SiteSlots :=
  ⟨(hash + UInt64.ofNat probe).toNat % SiteSlots, Nat.mod_lt _ siteSlots_pos⟩

/-- The slots that the probes of a hash come to are those of the table. -/
theorem siteSlot_all (hash : UInt64) (s : Fin SiteSlots) :
    ∃ probe, probe < SiteSlots ∧ siteSlot hash probe = s := by
  have below := s.isLt
  unfold SiteSlots at below
  refine ⟨(s.val + (4096 - hash.toNat % 4096)) % 4096, Nat.mod_lt _ (by decide), Fin.ext ?_⟩
  change (hash + UInt64.ofNat _).toNat % 4096 = s.val
  rw [UInt64.toNat_add, UInt64.toNat_ofNat']
  omega

/-- Where a call of `firstReport` is. -/
inductive Stage where
  /-- Before the load of a probe's slot. -/
  | load (probe : Nat)
  /-- The slot was free: before the exchange. -/
  | exchange (probe : Nat)
  /-- Returned 1 for a hash it has put into the table. -/
  | first
  /-- Returned 0. -/
  | again
  /-- Returned 1 after the last probe. -/
  | full
  deriving DecidableEq

/-- What a call has returned. -/
def Stage.answer : Stage → Option Bool
  | .first | .full => some true
  | .again => some false
  | _ => none

/-- The end of the loop's body. -/
def nextProbe (probe : Nat) : Stage := if probe + 1 < SiteSlots then .load (probe + 1) else .full

/-- What follows a look at a slot that another call has taken. -/
def compared (hash seen : UInt64) (probe : Nat) : Stage :=
  if seen = hash then .again else nextProbe probe

abbrev Sites := Fin SiteSlots → UInt64

/-- A call's next atomic operation, and what the call does up to the one after. -/
def firstReport (hash : UInt64) (reportedSites : Sites) : Stage → Option (Sites × Stage)
  | .load probe =>
      let seen := reportedSites (siteSlot hash probe)
      some (reportedSites, if seen = 0 then .exchange probe else compared hash seen probe)
  | .exchange probe =>
      let slot := siteSlot hash probe
      let seen := reportedSites slot
      if seen = 0 then some (Function.update reportedSites slot hash, .first)
      else some (reportedSites, compared hash seen probe)
  | _ => none

/-- The table, and where each call is. -/
structure Reports (C : Type) where
  reportedSites : Sites
  call : C → Stage

namespace Reports

variable {C : Type}

def initial : Reports C := ⟨fun _ => 0, fun _ => .load 0⟩

section Machine

variable [DecidableEq C] (hash : C → SiteHash)

/-- A step of one call. -/
def step (s : Reports C) (c : C) : Option (Reports C) :=
  (firstReport (hash c) s.reportedSites (s.call c)).map fun after =>
    ⟨after.1, Function.update s.call c after.2⟩

end Machine

/-! ## What a call has seen -/

/-- A call has passed the slots of its earlier probes, and one that has
returned has met its hash. -/
def Seen (t : Sites) (hash : UInt64) : Stage → Prop
  | .load probe | .exchange probe => probe < SiteSlots ∧ Passed 0 siteSlot t hash probe
  | .first | .again => ∃ s, t s = hash
  | .full => Passed 0 siteSlot t hash SiteSlots

theorem Seen.grows {t t' : Sites} {hash : UInt64} {stage : Stage} (key : hash ≠ 0)
    (seen : Seen t hash stage) (grows : Grows 0 t t') : Seen t' hash stage := by
  cases stage with
  | load | exchange => exact ⟨seen.1, seen.2.grows grows⟩
  | first | again =>
      obtain ⟨s, rfl⟩ := seen
      exact ⟨s, grows s key⟩
  | full => exact Passed.grows seen grows

theorem seen_nextProbe {t : Sites} {hash : UInt64} {probe : Nat}
    (passed : Passed 0 siteSlot t hash (probe + 1)) (below : probe < SiteSlots) :
    Seen t hash (nextProbe probe) := by
  unfold nextProbe
  split_ifs with more
  · exact ⟨more, passed⟩
  · have last : probe + 1 = SiteSlots := by omega
    rw [last] at passed
    exact passed

theorem seen_compared {t : Sites} {hash : UInt64} {probe : Nat} (below : probe < SiteSlots)
    (passed : Passed 0 siteSlot t hash probe) (taken : t (siteSlot hash probe) ≠ 0) :
    Seen t hash (compared hash (t (siteSlot hash probe)) probe) := by
  unfold compared
  split_ifs with same
  · exact ⟨siteSlot hash probe, same⟩
  · exact seen_nextProbe (passed.succ taken same) below

theorem compared_ne_first (hash seen : UInt64) (probe : Nat) : compared hash seen probe ≠ .first := by
  unfold compared nextProbe
  split_ifs <;> exact Stage.noConfusion

/-- What one operation of a call does: it finds out about a slot, or fills one. -/
theorem firstReport_cases {hash : UInt64} {t t' : Sites} {stage stage' : Stage}
    (seen : Seen t hash stage) (taken : firstReport hash t stage = some (t', stage')) :
    (t' = t ∧ Seen t hash stage' ∧ stage ≠ .first ∧ stage' ≠ .first) ∨
      ∃ probe, stage = .exchange probe ∧ stage' = .first ∧
        Passed 0 siteSlot t hash probe ∧ t (siteSlot hash probe) = 0 ∧
          t' = Function.update t (siteSlot hash probe) hash := by
  cases stage with
  | load probe =>
      obtain ⟨rfl, rfl⟩ := Prod.mk.inj (Option.some.inj taken)
      obtain ⟨below, passed⟩ := seen
      refine .inl ⟨rfl, ?_, Stage.noConfusion, ?_⟩
      · split_ifs with room
        · exact ⟨below, passed⟩
        · exact seen_compared below passed room
      · split_ifs
        · exact Stage.noConfusion
        · exact compared_ne_first _ _ _
  | exchange probe =>
      obtain ⟨below, passed⟩ := seen
      unfold firstReport at taken
      dsimp only at taken
      split_ifs at taken with room
      · obtain ⟨rfl, rfl⟩ := Prod.mk.inj (Option.some.inj taken)
        exact .inr ⟨probe, rfl, rfl, passed, room, rfl⟩
      · obtain ⟨rfl, rfl⟩ := Prod.mk.inj (Option.some.inj taken)
        exact .inl ⟨rfl, seen_compared below passed room, Stage.noConfusion,
          compared_ne_first _ _ _⟩
  | _ => cases taken

/-! ## Runs -/

variable (hash : C → SiteHash)

/-- Each hash of the table was put there by the one call that answered first. -/
structure Ok (s : Reports C) : Prop where
  placed : Placed 0 siteSlot s.reportedSites
  seen : ∀ c, Seen s.reportedSites (hash c) (s.call c)
  owner : ∀ i, s.reportedSites i ≠ 0 →
    ∃ c, s.call c = .first ∧ (hash c : UInt64) = s.reportedSites i
  alone : ∀ c c', s.call c = .first → s.call c' = .first → hash c = hash c' → c = c'

theorem ok_initial : (initial : Reports C).Ok hash where
  placed _ taken := absurd rfl taken
  seen _ := ⟨siteSlots_pos, .zero⟩
  owner _ taken := absurd rfl taken
  alone c _ first := by cases first

variable {hash} [DecidableEq C] {s s' : Reports C} {c : C}

theorem Ok.step (ok : s.Ok hash) (taken : s.step hash c = some s') : s'.Ok hash := by
  obtain ⟨⟨t, stage⟩, operation, rfl⟩ := Option.map_eq_some_iff.mp taken
  rcases firstReport_cases (ok.seen c) operation with
    ⟨rfl, seen, wasNot, isNot⟩ | ⟨probe, was, rfl, passed, room, rfl⟩
  · -- the table is as it was, and no call has become the first
    have first (c' : C) : Function.update s.call c stage c' = .first ↔ s.call c' = .first := by
      by_cases self : c' = c
      · rw [self, Function.update_self]
        exact iff_of_false isNot wasNot
      · rw [Function.update_of_ne self]
    refine ⟨ok.placed, fun c' => ?_, fun i some => ?_, fun c' c'' is is' same => ?_⟩
    · by_cases self : c' = c
      · rw [self]
        dsimp only
        rw [Function.update_self]
        exact seen
      · dsimp only
        rw [Function.update_of_ne self]
        exact ok.seen c'
    · obtain ⟨c', is, here⟩ := ok.owner i some
      exact ⟨c', (first c').mpr is, here⟩
    · exact ok.alone c' c'' ((first c').mp is) ((first c'').mp is') same
  · have grows : Grows 0 s.reportedSites
        (Function.update s.reportedSites (siteSlot (hash c) probe) (hash c)) := .update room _
    have new := ok.placed.absent passed room (hash c).property
    -- no call with this hash was the first before
    have none (c' : C) (is : s.call c' = .first) : hash c' ≠ hash c := by
      intro same
      have seen := ok.seen c'
      rw [is, same] at seen
      obtain ⟨i, here⟩ := seen
      exact new i here
    have cases (c' : C) (is : Function.update s.call c .first c' = .first) :
        c' = c ∨ s.call c' = .first := by
      by_cases self : c' = c
      · exact .inl self
      · rw [Function.update_of_ne self] at is
        exact .inr is
    refine ⟨ok.placed.update passed room, fun c' => ?_, fun i some => ?_, fun c' c'' is is' same => ?_⟩
    · dsimp only
      by_cases self : c' = c
      · rw [self, Function.update_self]
        exact ⟨siteSlot (hash c) probe, Function.update_self _ _ _⟩
      · rw [Function.update_of_ne self]
        exact (ok.seen c').grows (hash c').property grows
    · dsimp only at some ⊢
      by_cases here : i = siteSlot (hash c) probe
      · rw [here, Function.update_self]
        exact ⟨c, Function.update_self _ _ _, rfl⟩
      · rw [Function.update_of_ne here] at some ⊢
        obtain ⟨c', is, eq⟩ := ok.owner i some
        refine ⟨c', ?_, eq⟩
        rw [Function.update_of_ne, is]
        rintro rfl
        rw [was] at is
        cases is
    · rcases cases c' is with rfl | before
      · rcases cases c'' is' with rfl | before
        · rfl
        · exact absurd same.symm (none c'' before)
      · rcases cases c'' is' with rfl | before'
        · exact absurd same (none c' before)
        · exact ok.alone c' c'' before before' same

theorem ok_run (run : Run (step hash) (fun _ _ => True) initial s) : s.Ok hash :=
  run.invariant (ok_initial hash) fun _ _ _ ok _ taken => ok.step taken

omit [DecidableEq C] in
/-- A call that has run out of probes has found every slot taken by others. -/
theorem Ok.full (ok : s.Ok hash) (full : s.call c = .full) (i : Fin SiteSlots) :
    s.reportedSites i ≠ 0 ∧ s.reportedSites i ≠ hash c := by
  have seen := ok.seen c
  rw [full] at seen
  exact Passed.full seen (siteSlot_all (hash c)) i

/-- The operations that a call has left at most. -/
def left : Stage → Nat
  | .load probe => 2 * (SiteSlots - probe)
  | .exchange probe => 2 * (SiteSlots - probe) - 1
  | _ => 0

theorem left_compared (hash seen : UInt64) {probe : Nat} (below : probe < SiteSlots) :
    left (compared hash seen probe) < 2 * (SiteSlots - probe) - 1 := by
  unfold compared nextProbe
  split_ifs with same more
  · change 0 < _
    omega
  · change 2 * (SiteSlots - (probe + 1)) < _
    omega
  · change 0 < _
    omega

/-- A call that has not answered can go on, and comes nearer to its answer. -/
theorem Ok.answers (ok : s.Ok hash) (waits : (s.call c).answer = none) :
    ∃ s', s.step hash c = some s' ∧ left (s'.call c) < left (s.call c) := by
  have seen := ok.seen c
  unfold Reports.step
  cases stage : s.call c with
  | load probe =>
      rw [stage] at seen
      refine ⟨_, rfl, ?_⟩
      dsimp only
      rw [Function.update_self]
      split_ifs
      · change 2 * (SiteSlots - probe) - 1 < 2 * (SiteSlots - probe)
        have below := seen.1
        omega
      · exact Nat.lt_of_lt_of_le (left_compared _ _ seen.1) (Nat.sub_le _ 1)
  | exchange probe =>
      rw [stage] at seen
      unfold firstReport
      dsimp only
      split_ifs
      · refine ⟨_, rfl, ?_⟩
        dsimp only
        rw [Function.update_self]
        change 0 < 2 * (SiteSlots - probe) - 1
        have below := seen.1
        omega
      · refine ⟨_, rfl, ?_⟩
        dsimp only
        rw [Function.update_self]
        exact left_compared _ _ seen.1
  | _ =>
      rw [stage] at waits
      cases waits

/-- However the calls' operations interleave: a call that has not answered goes
on and comes nearer to its answer, and until one has found every slot taken by
other hashes, of the calls with one hash that have answered exactly one has
answered that it is the first. -/
theorem one_report (run : Run (step hash) (fun _ _ => True) initial s) :
    (∀ c, (s.call c).answer = none →
      ∃ s', s.step hash c = some s' ∧ left (s'.call c) < left (s.call c)) ∧
      ((∀ c, s.call c ≠ .full) →
        ∀ h : SiteHash, (∃ c, hash c = h ∧ (s.call c).answer ≠ none) →
          ∃ c, (hash c = h ∧ (s.call c).answer = some true) ∧
            ∀ c', hash c' = h → c' ≠ c → (s.call c').answer ≠ none →
              (s.call c').answer = some false) := by
  have ok := ok_run run
  refine ⟨fun c waits => ok.answers waits, fun room h answered => ?_⟩
  have first : ∃ c, hash c = h ∧ s.call c = .first := by
    obtain ⟨c, rfl, answer⟩ := answered
    cases stage : s.call c with
    | first => exact ⟨c, rfl, stage⟩
    | again =>
        have seen := ok.seen c
        rw [stage] at seen
        obtain ⟨i, here⟩ := seen
        obtain ⟨c', is, same⟩ := ok.owner i (here ▸ (hash c).property)
        exact ⟨c', Subtype.ext (same.trans here), is⟩
    | full => exact absurd stage (room c)
    | load | exchange =>
        rw [stage] at answer
        exact absurd rfl answer
  obtain ⟨c, rfl, is⟩ := first
  refine ⟨c, ⟨rfl, congrArg Stage.answer is⟩, fun c' same other answer' => ?_⟩
  cases stage : s.call c' with
  | first => exact absurd (ok.alone c' c stage is same) other
  | again => rfl
  | full => exact absurd stage (room c')
  | load | exchange =>
      rw [stage] at answer'
      exact absurd rfl answer'

/-! ## Two calls for one site -/

def sampleSite : SiteHash := siteHash (some [104, 101, 97, 112]) (some [97, 46, 99]) 3 5

/-- Both find the slot free, and one of them fills it. -/
theorem one_report_raced : ∃ s : Reports Bool,
    (s.call false = .first ∧ s.call true = .again) ∧
      ∃ c, (s.call c).answer = some true ∧
        ∀ c', c' ≠ c → (s.call c').answer ≠ none → (s.call c').answer = some false := by
  obtain ⟨s, run, seen⟩ : ∃ s : Reports Bool,
      Run (step fun _ => sampleSite) (fun _ _ => True) initial s ∧
        (s.call false, s.call true) = (.first, .again) :=
    Run.exists_exec [false, true, false, true] (by decide +kernel)
  obtain ⟨first, again⟩ := Prod.mk.inj seen
  have room (c : Bool) : s.call c ≠ .full := by
    cases c with
    | false =>
        rw [first]
        exact Stage.noConfusion
    | true =>
        rw [again]
        exact Stage.noConfusion
  have answered : (s.call true).answer ≠ none := by
    rw [again]
    exact Option.some_ne_none _
  obtain ⟨c, ⟨-, is⟩, others⟩ := (one_report run).2 room sampleSite ⟨true, rfl, answered⟩
  exact ⟨s, ⟨first, again⟩, c, is, fun c' => others c' rfl⟩

end Reports

end WeaveC.Runtime
