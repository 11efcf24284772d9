import WeaveC.Runtime.Guard
import Mathlib.Order.Bounds.Basic

/-!
# The range guards decide one specification

A byte of the window is addressable when its settled shadow byte says so.
The three tiers are compared with the set of the bytes of a range that are
not: the two fast ones answer yes only when it is empty, and the exact search
returns its least element.
-/

namespace WeaveC.Runtime

open WeaveC.Library

/-! ## Settling -/

/-- A granule marked returned that is not a returned frame's. -/
def Stale (ctx : Context) (granule : Nat) : Prop :=
  ¬ (granule + 16 ≤ ctx.here ∧ ctx.stackBottom ≤ granule ∧ ctx.here < ctx.stackTop)

instance (ctx : Context) (granule : Nat) : Decidable (Stale ctx granule) :=
  inferInstanceAs (Decidable (¬ _))

/-- The shadow value of a granule as the exact search decides it. -/
def settled (ctx : Context) (s : Shadow) (granule : Nat) : UInt8 :=
  (settle ctx granule (s.of granule) s).1

/-- Byte `b` is addressable according to the shadow. -/
def Addressable (ctx : Context) (s : Shadow) (b : Nat) : Prop :=
  let v := settled ctx s (b / 16 * 16)
  shadowFull v ∨ ¬ shadowPoison v ∧ b % 16 < shadowBytes v

instance (ctx : Context) (s : Shadow) (b : Nat) : Decidable (Addressable ctx s b) :=
  inferInstanceAs (Decidable (_ ∨ _))

/-- The bytes of a range, inside the window, that are not addressable. -/
def unaddressable (ctx : Context) (s : Shadow) (address n : Nat) : Set Nat :=
  {b | s.Ready ∧ address ≤ b ∧ b < address + n ∧ s.InWindow b ∧ ¬ Addressable ctx s b}

theorem settled_eq (ctx : Context) (s : Shadow) (granule : Nat) :
    settled ctx s granule =
      if s.of granule = ShadowValue.returned ∧ Stale ctx granule then ShadowValue.addressable
      else s.of granule := by
  unfold settled settle Stale
  split_ifs <;> simp_all

theorem settled_of_full {ctx : Context} {s : Shadow} {granule : Nat}
    (full : shadowFull (s.of granule)) : settled ctx s granule = s.of granule := by
  rw [settled_eq, if_neg]
  rintro ⟨returned, -⟩
  rw [returned] at full
  exact absurd full (by decide)

theorem of_granule {s : Shadow} (ready : s.Ready) {b : Nat} (inside : b < 2 ^ s.bits) :
    s.of (b / 16 * 16) = s.byte (b / 16) := by
  have granule : b / 16 * 16 / 16 = b / 16 := by omega
  unfold Shadow.of
  rw [Shadow.index_eq_div ready (by omega), granule]

/-- Only a granule's own value decides its bytes. -/
theorem addressable_congr {ctx : Context} {s s' : Shadow} (ready : s.Ready) (ready' : s'.Ready)
    {b : Nat} (inside : b < 2 ^ s.bits) (inside' : b < 2 ^ s'.bits)
    (same : s'.byte (b / 16) = s.byte (b / 16)) :
    Addressable ctx s' b ↔ Addressable ctx s b := by
  unfold Addressable
  rw [settled_eq, settled_eq, of_granule ready inside, of_granule ready' inside', same]

/-- `s'` is `s` but for stale granules that were cleared. -/
structure Settles (ctx : Context) (s s' : Shadow) : Prop where
  bits : s'.bits = s.bits
  mask : s'.mask = s.mask
  byte : ∀ i, s'.byte i = s.byte i ∨
    s.byte i = ShadowValue.returned ∧ Stale ctx (16 * i) ∧ s'.byte i = ShadowValue.addressable

theorem Settles.refl (ctx : Context) (s : Shadow) : Settles ctx s s :=
  ⟨rfl, rfl, fun _ => .inl rfl⟩

theorem Settles.trans {ctx : Context} {s s' s'' : Shadow} (first : Settles ctx s s')
    (second : Settles ctx s' s'') : Settles ctx s s'' where
  bits := second.bits.trans first.bits
  mask := second.mask.trans first.mask
  byte i := by
    rcases first.byte i with same | ⟨returned, stale, cleared⟩
    · simpa only [same] using second.byte i
    · rcases second.byte i with same | ⟨returned', -, -⟩
      · exact .inr ⟨returned, stale, same.trans cleared⟩
      · rw [cleared] at returned'
        exact absurd returned' (by decide)

theorem Settles.ready {ctx : Context} {s s' : Shadow} (same : Settles ctx s s') (ready : s.Ready) :
    s'.Ready := by
  rw [Shadow.Ready, same.mask]
  exact ready

theorem Settles.of_eq {ctx : Context} {s s' : Shadow} (same : Settles ctx s s') (ready : s.Ready)
    {x : Nat} (inside : x < 2 ^ s.bits) (aligned : x % 16 = 0) :
    s'.of x = s.of x ∨ s'.of x = settled ctx s x := by
  have here := same.byte (x / 16)
  rw [Shadow.of, Shadow.of, Shadow.index_eq_div (same.ready ready) (same.bits ▸ inside),
    Shadow.index_eq_div ready inside]
  refine here.imp id ?_
  rintro ⟨returned, stale, cleared⟩
  rw [show 16 * (x / 16) = x by omega] at stale
  rw [cleared, settled_eq, if_pos]
  rw [Shadow.of, Shadow.index_eq_div ready inside]
  exact ⟨returned, stale⟩

/-- Only granules marked returned are cleared. -/
theorem Settles.of_kept {ctx : Context} {s s' : Shadow} (same : Settles ctx s s') {address : Nat}
    (kept : s.of address ≠ ShadowValue.returned) : s'.of address = s.of address := by
  rw [Shadow.of, Shadow.index, same.mask]
  exact (same.byte _).resolve_right fun cleared => kept cleared.1

/-- Clearing stale granules changes no settled value. -/
theorem Settles.settled {ctx : Context} {s s' : Shadow} (same : Settles ctx s s') (ready : s.Ready)
    {x : Nat} (inside : x < 2 ^ s.bits) (aligned : x % 16 = 0) :
    settled ctx s' x = Runtime.settled ctx s x := by
  rw [settled_eq ctx s' x]
  rcases same.of_eq ready inside aligned with old | new
  · rw [old, ← settled_eq]
  · rw [new]
    split_ifs with stale
    · rw [settled_eq] at stale ⊢
      split_ifs at stale ⊢ with found
      · rfl
      · exact absurd ⟨stale.1, stale.2⟩ found
    · rfl

theorem settle_settles (ctx : Context) {s : Shadow} (ready : s.Ready) {x : Nat}
    (inside : x < 2 ^ s.bits) (aligned : x % 16 = 0) :
    Settles ctx s (settle ctx x (s.of x) s).2 := by
  have at' : s.index x = x / 16 := Shadow.index_eq_div ready inside
  unfold settle
  split_ifs with other frame
  · exact .refl ctx s
  · exact .refl ctx s
  · refine ⟨rfl, rfl, fun i => ?_⟩
    by_cases hit : i = x / 16
    · right
      have granule : 16 * (x / 16) = x := by omega
      refine ⟨?_, ?_, ?_⟩
      · rw [hit, ← at']
        exact not_not.mp other
      · rw [hit, granule]
        exact frame
      · simp [hit, at']
    · left
      simp [at', hit]

/-- Once settled, a granule holds its settled value. -/
theorem settle_of (ctx : Context) (s : Shadow) (x : Nat) :
    (settle ctx x (s.of x) s).2.of x = settled ctx s x := by
  unfold settled settle
  split_ifs <;> simp [Shadow.of]

/-! ## The exact search -/

theorem skipWhole_spec {s : Shadow} (ready : s.Ready) {stop : Nat} (inside : stop ≤ 2 ^ s.bits)
    (granule : Nat) (aligned : granule % 16 = 0) :
    skipWhole s stop granule % 16 = 0 ∧ skipWhole s stop granule ≤ max stop granule ∧
      ∀ x, granule ≤ x → x < skipWhole s stop granule → x % 16 = 0 → shadowFull (s.of x) := by
  fun_induction skipWhole s stop granule with
  | case1 granule eight ih =>
    obtain ⟨room, -, clear⟩ := eight
    obtain ⟨alignedEnd, bound, rest⟩ := ih (by omega)
    refine ⟨alignedEnd, by omega, fun x low high xAligned => ?_⟩
    by_cases later : granule + 128 ≤ x
    · exact rest x later high xAligned
    · have bytes := (loadLE_and_signBits s.byte (s.index granule) 8 8).mp clear
      have here := bytes ((x - granule) / 16) (by omega) (by omega)
      have place : s.index granule + (x - granule) / 16 = s.index x := by
        rw [Shadow.index_eq_div ready (by omega), Shadow.index_eq_div ready (by omega)]
        omega
      rwa [place] at here
  | case2 granule done =>
    exact ⟨aligned, le_max_right _ _, fun x low high => by omega⟩

/-- What `advance` passes over is whole, and what it stops at is settled. -/
theorem advance_spec (ctx : Context) {stop : Nat} {s : Shadow} (ready : s.Ready)
    (inside : stop ≤ 2 ^ s.bits) {granule : Nat} (aligned : granule % 16 = 0)
    (before : granule < stop) :
    let a := advance ctx stop s granule
    a.1 % 16 = 0 ∧ a.1 ≤ stop ∧ Settles ctx s a.2.2 ∧
      (∀ x, granule ≤ x → x < a.1 → x % 16 = 0 →
        shadowFull (settled ctx s x) ∧ a.2.2.of x = settled ctx s x) ∧
      (a.1 < stop → a.2.1 = settled ctx s a.1 ∧ a.2.2.of a.1 = settled ctx s a.1) := by
  have first := settle_settles ctx ready (x := granule) (by omega) aligned
  have value : (settle ctx granule (s.of granule) s).1 = settled ctx s granule := rfl
  have stored := settle_of ctx s granule
  unfold advance
  generalize settle ctx granule (s.of granule) s = p at first value stored
  obtain ⟨v, s₁⟩ := p
  simp only at first value stored ⊢
  subst value
  have ready₁ := first.ready ready
  have inside₁ : stop ≤ 2 ^ s₁.bits := by
    rw [first.bits]
    exact inside
  obtain ⟨alignedEnd, bound, skipped⟩ := skipWhole_spec ready₁ inside₁ granule aligned
  have passed : ∀ x, granule ≤ x → x < skipWhole s₁ stop granule → x % 16 = 0 →
      shadowFull (settled ctx s x) ∧ s₁.of x = settled ctx s x := by
    intro x low high xAligned
    have full := skipped x low high xAligned
    have same := first.settled ready (x := x) (by omega) xAligned
    rw [settled_of_full full] at same
    exact ⟨same ▸ full, same⟩
  split_ifs with full done
  · refine ⟨alignedEnd, by omega, first, passed, fun more => by omega⟩
  · have atEnd : skipWhole s₁ stop granule < 2 ^ s₁.bits := by omega
    have second := settle_settles ctx ready₁ atEnd alignedEnd
    have value := first.settled ready (first.bits ▸ atEnd) alignedEnd
    refine ⟨alignedEnd, by omega, first.trans second, ?_, fun _ => ⟨value, ?_⟩⟩
    · intro x low high xAligned
      have whole := passed x low high xAligned
      refine ⟨whole.1, ?_⟩
      have still := second.of_eq ready₁ (x := x) (by omega) xAligned
      rw [first.settled ready (by omega) xAligned, whole.2] at still
      exact still.elim id id
    · rw [settle_of]
      exact value
  · exact ⟨aligned, by omega, first, fun x low high => by omega, fun _ => ⟨rfl, stored⟩⟩

theorem addressable_of_full {ctx : Context} {s : Shadow} {b : Nat}
    (full : shadowFull (settled ctx s (b / 16 * 16))) : Addressable ctx s b :=
  .inl full

theorem Settles.addressable {ctx : Context} {s s' : Shadow} (same : Settles ctx s s')
    (ready : s.Ready) {b : Nat} (inside : b < 2 ^ s.bits) :
    Addressable ctx s' b ↔ Addressable ctx s b := by
  unfold Addressable
  rw [same.settled ready (by omega) (by omega)]

/-- What a search from `granule` may answer. -/
def Found (ctx : Context) (address stop : Nat) (s : Shadow) (granule : Nat)
    (result : Option (Nat × UInt8) × Shadow) : Prop :=
  Settles ctx s result.2 ∧
    match result.1 with
    | none =>
        (∀ b, max address granule ≤ b → b < stop → Addressable ctx s b) ∧
          ∀ x, granule ≤ x → x < stop → x % 16 = 0 → result.2.of x = settled ctx s x
    | some (bad, v) =>
        max address granule ≤ bad ∧ bad < stop ∧ ¬ Addressable ctx s bad ∧
          (∀ b, max address granule ≤ b → b < bad → Addressable ctx s b) ∧
          v = settled ctx s (bad / 16 * 16)

/-- A search may go on past granules whose bytes are addressable. -/
theorem Found.extend {ctx : Context} {address stop : Nat} {s s₁ : Shadow} (ready : s.Ready)
    (inside : stop ≤ 2 ^ s.bits) {granule next : Nat} (forward : granule ≤ next)
    (same : Settles ctx s s₁)
    (skipped : ∀ b, max address granule ≤ b → b < next → b < stop → Addressable ctx s b)
    (stored : ∀ x, granule ≤ x → x < next → x < stop → x % 16 = 0 → s₁.of x = settled ctx s x)
    {result : Option (Nat × UInt8) × Shadow} (found : Found ctx address stop s₁ next result) :
    Found ctx address stop s granule result := by
  obtain ⟨later, answer⟩ := found
  have ready₁ := same.ready ready
  refine ⟨same.trans later, ?_⟩
  have agree : ∀ b, b < stop → (Addressable ctx s₁ b ↔ Addressable ctx s b) :=
    fun b low => same.addressable ready (by omega)
  have value : ∀ x, x < stop → x % 16 = 0 → settled ctx s₁ x = settled ctx s x :=
    fun x low xAligned => same.settled ready (by omega) xAligned
  rcases result with ⟨_ | ⟨bad, v⟩, s₂⟩
  · refine ⟨fun b low high => ?_, fun x low high xAligned => ?_⟩
    · by_cases past : next ≤ b
      · exact (agree b high).mp (answer.1 b (by omega) high)
      · exact skipped b low (by omega) high
    · by_cases past : next ≤ x
      · rw [answer.2 x past high xAligned, value x high xAligned]
      · have old := stored x low (by omega) high xAligned
        have inside₁ : x < 2 ^ s₁.bits := by
          rw [same.bits]
          omega
        rcases later.of_eq ready₁ inside₁ xAligned with kept | cleared
        · rw [kept, old]
        · rw [cleared, value x high xAligned]
  · obtain ⟨low, high, isBad, before, shown⟩ := answer
    refine ⟨by omega, high, fun good => isBad ((agree bad high).mpr good), fun b low' high' => ?_, ?_⟩
    · by_cases past : next ≤ b
      · exact (agree b (by omega)).mp (before b (by omega) high')
      · exact skipped b low' (by omega) (by omega)
    · rw [shown, value (bad / 16 * 16) (by omega) (by omega)]

/-- A granule that is neither whole nor poison: its first bytes. -/
theorem addressable_iff_shadowBytes {ctx : Context} {s : Shadow} {b : Nat}
    (notFull : ¬ shadowFull (settled ctx s (b / 16 * 16)))
    (notPoison : ¬ shadowPoison (settled ctx s (b / 16 * 16))) :
    Addressable ctx s b ↔ b % 16 < shadowBytes (settled ctx s (b / 16 * 16)) := by
  simp only [Addressable, notFull, notPoison, not_false_eq_true, true_and, false_or]

/-- The search goes on past the granule `advance` stopped at when the bytes it
decides of that granule are addressable. -/
theorem Found.next (ctx : Context) (address : Nat) {stop : Nat} {s : Shadow} (ready : s.Ready)
    (inside : stop ≤ 2 ^ s.bits) {granule : Nat} (aligned : granule % 16 = 0)
    (before : granule < stop) (more : (advance ctx stop s granule).1 < stop)
    (good : ∀ b, address ≤ b → (advance ctx stop s granule).1 ≤ b →
      b < (advance ctx stop s granule).1 + 16 → b < stop → Addressable ctx s b)
    {result : Option (Nat × UInt8) × Shadow}
    (found : Found ctx address stop (advance ctx stop s granule).2.2
      ((advance ctx stop s granule).1 + 16) result) :
    Found ctx address stop s granule result := by
  obtain ⟨alignedEnd, -, same, passed, atEnd⟩ := advance_spec ctx ready inside aligned before
  have forward := le_advance ctx stop s granule
  refine found.extend ready inside (by omega) same (fun b low high small => ?_)
    (fun x low high small xAligned => ?_)
  · by_cases skipped : b < (advance ctx stop s granule).1
    · exact addressable_of_full (passed _ (by omega) (by omega) (by omega)).1
    · exact good b (by omega) (by omega) high small
  · by_cases skipped : x < (advance ctx stop s granule).1
    · exact (passed x low skipped xAligned).2
    · rw [show x = (advance ctx stop s granule).1 by omega]
      exact (atEnd more).2

/-- The search answers with the first bad byte of the granule `advance`
stopped at. -/
theorem Found.answer (ctx : Context) (address : Nat) {stop : Nat} {s : Shadow} (ready : s.Ready)
    (inside : stop ≤ 2 ^ s.bits) {granule : Nat} (aligned : granule % 16 = 0)
    (before : granule < stop) (more : (advance ctx stop s granule).1 < stop) {bad : Nat}
    (low : max (advance ctx stop s granule).1 address ≤ bad)
    (high : bad < (advance ctx stop s granule).1 + 16) (small : bad < stop)
    (isBad : ¬ Addressable ctx s bad)
    (good : ∀ b, address ≤ b → (advance ctx stop s granule).1 ≤ b → b < bad →
      Addressable ctx s b) :
    Found ctx address stop s granule
      (some (bad, (advance ctx stop s granule).2.1), (advance ctx stop s granule).2.2) := by
  obtain ⟨alignedEnd, -, same, passed, atEnd⟩ := advance_spec ctx ready inside aligned before
  have forward := le_advance ctx stop s granule
  refine ⟨same, by omega, small, isBad, fun b low' high' => ?_, ?_⟩
  · by_cases skipped : b < (advance ctx stop s granule).1
    · exact addressable_of_full (passed _ (by omega) (by omega) (by omega)).1
    · exact good b (by omega) (by omega) high'
  · rw [show bad / 16 * 16 = (advance ctx stop s granule).1 by omega]
    exact (atEnd more).1

theorem scan_spec (ctx : Context) {address stop : Nat} {s : Shadow} (ready : s.Ready)
    (inside : stop ≤ 2 ^ s.bits) (granule : Nat) (aligned : granule % 16 = 0)
    (near : address < granule + 16) (starts : address < stop) :
    Found ctx address stop s granule (scan ctx address stop s granule) := by
  induction h : stop - granule using Nat.strong_induction_on generalizing s granule with
  | _ measure ih =>
  rw [scan]
  by_cases before : granule < stop
  swap
  · rw [if_neg before]
    exact ⟨.refl ctx s, fun b low high => by omega, fun x low high => by omega⟩
  obtain ⟨alignedEnd, bound, same, passed, atEnd⟩ := advance_spec ctx ready inside aligned before
  have forward := le_advance ctx stop s granule
  have next := Found.next ctx address ready inside aligned before
  have answer := Found.answer ctx address ready inside aligned before
  have rest := ih (stop - ((advance ctx stop s granule).1 + 16)) (by omega) (same.ready ready)
    (same.bits ▸ inside) ((advance ctx stop s granule).1 + 16) (by omega) (by omega) rfl
  -- the value the search sees is the granule's settled one
  have value : (advance ctx stop s granule).1 < stop → ∀ b, (advance ctx stop s granule).1 ≤ b →
      b < (advance ctx stop s granule).1 + 16 →
      settled ctx s (b / 16 * 16) = (advance ctx stop s granule).2.1 := by
    intro more b low high
    rw [show b / 16 * 16 = (advance ctx stop s granule).1 by omega, (atEnd more).1]
  generalize advance ctx stop s granule = a at *
  simp only [if_pos before]
  split_ifs with done full poison past
  · refine ⟨same, fun b low high => ?_, fun x low high xAligned => ?_⟩
    · exact addressable_of_full (passed _ (by omega) (by omega) (by omega)).1
    · exact (passed x low (by omega) xAligned).2
  · refine next (by omega) (fun b _ low high _ => addressable_of_full ?_) rest
    rw [value (by omega) b low high]
    exact full
  · have same := value (by omega) (max a.1 address) (by omega) (by omega)
    refine answer (by omega) (by omega) (by omega) (by omega) ?_ (fun b _ low high => by omega)
    rw [Addressable, same]
    simp [full, poison]
  · -- the granule's first bytes are all the range has of it
    refine next (by omega) (fun b _ low high small => ?_) rest
    have same := value (by omega) b low high
    rw [addressable_iff_shadowBytes (by rwa [same]) (by rwa [same]), same]
    omega
  · refine answer (by omega) (by omega) (by omega) (by omega) ?_ (fun b _ low high => ?_)
    · have same := value (by omega) (max (max a.1 address) (a.1 + shadowBytes a.2.1)) (by omega)
        (by omega)
      rw [addressable_iff_shadowBytes (by rwa [same]) (by rwa [same]), same]
      omega
    · have same := value (by omega) b low (by omega)
      rw [addressable_iff_shadowBytes (by rwa [same]) (by rwa [same]), same]
      omega

/-- The decided part of a range is its part inside the window. -/
theorem decidedEnd_spec {s : Shadow} (ready : s.Ready) {address n : Nat} (nonempty : n ≠ 0)
    (inside : address < 2 ^ s.bits) :
    address < decidedEnd s address n ∧ decidedEnd s address n ≤ 2 ^ s.bits ∧
      ∀ b, b < decidedEnd s address n ↔ b < address + n ∧ b < 2 ^ s.bits := by
  have bounds := ready.bounds
  have narrow : 2 ^ s.bits ≤ 2 ^ 56 := Nat.pow_le_pow_right (by decide) bounds.2.2
  simp only [decidedEnd, Shadow.inWindow_iff ready, Nat.shiftLeft_eq, Nat.one_mul]
  rw [if_neg (show ¬ 64 ≤ s.bits by omega)]
  split_ifs <;> exact ⟨by omega, by omega, fun b => by omega⟩

theorem mem_unaddressable {ctx : Context} {s : Shadow} (ready : s.Ready) {address n b : Nat} :
    b ∈ unaddressable ctx s address n ↔
      address ≤ b ∧ b < address + n ∧ b < 2 ^ s.bits ∧ ¬ Addressable ctx s b := by
  rw [unaddressable, Set.mem_ofPred_eq, Shadow.inWindow_iff ready]
  exact and_iff_right ready

theorem unaddressable_empty {ctx : Context} {s : Shadow} {address n : Nat}
    (all : s.Ready → ∀ b, address ≤ b → b < address + n → b < 2 ^ s.bits →
      Addressable ctx s b) : unaddressable ctx s address n = ∅ := by
  refine Set.eq_empty_iff_forall_notMem.mpr fun b found => ?_
  obtain ⟨low, high, inside, bad⟩ := (mem_unaddressable found.1).mp found
  exact bad (all found.1 b low high inside)

theorem firstUnaddressable_spec (ctx : Context) (s : Shadow) (address n : Nat) :
    Settles ctx s (firstUnaddressable ctx s address n).2 ∧
      match (firstUnaddressable ctx s address n).1 with
      | none => unaddressable ctx s (reached ctx s address) n = ∅
      | some (bad, v) =>
          IsLeast (unaddressable ctx s (reached ctx s address) n) bad ∧
            v = settled ctx s (bad / 16 * 16) := by
  unfold firstUnaddressable
  generalize reached ctx s address = address
  dsimp only
  split_ifs with undecided
  · refine ⟨.refl ctx s, unaddressable_empty fun ready b low high inside => ?_⟩
    rw [Shadow.inWindow_iff ready] at undecided
    rcases undecided with empty | scratch | outside
    · omega
    · exact absurd ready scratch
    · omega
  · obtain ⟨nonempty, notScratch, within⟩ := not_or.mp undecided |>.imp id not_or.mp
    have ready := not_not.mp notScratch
    have inside := not_not.mp within
    rw [Shadow.inWindow_iff ready] at inside
    obtain ⟨starts, bound, part⟩ := decidedEnd_spec ready nonempty inside
    obtain ⟨same, answer⟩ :=
      scan_spec ctx ready bound (address / 16 * 16) (by omega) (by omega) starts
    refine ⟨same, ?_⟩
    generalize scan ctx address (decidedEnd s address n) s (address / 16 * 16) = r at same answer
    rcases r with ⟨_ | ⟨bad, v⟩, s'⟩
    · refine unaddressable_empty fun _ b low high inside => ?_
      exact answer.1 b (by omega) ((part b).mpr ⟨high, inside⟩)
    · obtain ⟨low, high, isBad, before, shown⟩ := answer
      have small := (part bad).mp high
      refine ⟨⟨(mem_unaddressable ready).mpr ⟨by omega, small.1, small.2, isBad⟩, ?_⟩, shown⟩
      intro b found
      obtain ⟨low', high', inside', bad'⟩ := (mem_unaddressable ready).mp found
      by_contra less
      exact bad' (before b (by omega) (by omega))

/-! ## The fast tiers -/

/-- The bytes of a range whose granules but the last are whole, and whose last
granule has the range's last byte. -/
theorem addressable_of_granules (ctx : Context) {s : Shadow} (ready : s.Ready) (first last : Nat)
    {b : Nat}
    (whole : ∀ x, first ≤ x / 16 → x / 16 < last / 16 → x < 2 ^ s.bits → shadowFull (s.of x))
    (tail : last < 2 ^ s.bits → shadowFull (s.of last) ∨
      ¬ shadowPoison (s.of last) ∧ last % 16 < shadowBytes (s.of last))
    (low : first ≤ b / 16) (high : b ≤ last) (inside : b < 2 ^ s.bits) :
    Addressable ctx s b := by
  have granule := Shadow.two_pow_bits ready
  have byte : s.of (b / 16 * 16) = s.of b := by
    rw [Shadow.of, Shadow.of, Shadow.index_eq_mod ready, Shadow.index_eq_mod ready]
    congr 2
    omega
  have ofFull : shadowFull (s.of b) → Addressable ctx s b := by
    intro full
    refine addressable_of_full ?_
    rw [settled_of_full] <;> rwa [byte]
  by_cases inner : b / 16 < last / 16
  · exact ofFull (whole b low inner inside)
  · have same : s.of last = s.of b := by
      rw [Shadow.of, Shadow.of, Shadow.index_eq_mod ready, Shadow.index_eq_mod ready]
      congr 2
      omega
    rw [same] at tail
    rcases tail (by omega) with full | ⟨notPoison, some⟩
    · exact ofFull full
    · right
      have value : settled ctx s (b / 16 * 16) = s.of b := by
        rw [settled_eq, byte, if_neg]
        rintro ⟨returned, -⟩
        rw [returned] at notPoison
        exact notPoison (by decide)
      rw [value]
      exact ⟨notPoison, by omega⟩

/-- The bytes one eight-byte load is asked about: the granules before the
last, and the last. -/
theorem chunk_test (s : Shadow) (i : Nat) {k : Nat} (short : k < 8) :
    ((loadLE s.byte i 8 &&& ((1 <<< (k * 8)) - 1)) &&& 0x8080808080808080 = 0 ↔
      ∀ j, j < k → shadowFull (s.byte (i + j))) ∧
    UInt8.ofNat (loadLE s.byte i 8 >>> (k * 8)) = s.byte (i + k) := by
  rw [Nat.mul_comm k 8, loadLE_byte s.byte i short, Nat.shiftLeft_eq, Nat.one_mul]
  exact ⟨loadLE_low_and_signBits s.byte i (by omega), rfl⟩

theorem quickOk_iff (s : Shadow) (address n : Nat) (nonempty : n ≠ 0) :
    quickOk s address n = true ↔
      (n ≤ 113 ∧ s.Ready ∧ s.InWindow address) ∧
      let last := address % 16 + n - 1
      (∀ j, j < last / 16 → shadowFull (s.byte (s.index address + j))) ∧
        (shadowFull (s.byte (s.index address + last / 16)) ∨
          ¬ shadowPoison (s.byte (s.index address + last / 16)) ∧
            last % 16 < shadowBytes (s.byte (s.index address + last / 16))) := by
  have low (x : Nat) : x &&& 15 = x % 16 := Nat.and_two_pow_sub_one_eq_mod x 4
  have high (x : Nat) : x >>> 4 = x / 16 := Nat.shiftRight_eq_div_pow x 4
  simp only [quickOk, if_neg nonempty, low, high]
  split_ifs with cannot mixed
  · refine iff_of_false id ?_
    rintro ⟨⟨short, ready, inside⟩, -⟩
    rcases cannot with long | scratch | outside
    · omega
    · exact scratch ready
    · exact outside inside
  all_goals
    obtain ⟨short, rest⟩ := not_or.mp cannot
    have ready : s.Ready := not_not.mp (not_or.mp rest).1
    have inside : s.InWindow address := not_not.mp (not_or.mp rest).2
    obtain ⟨test, value⟩ :=
      chunk_test s (s.index address) (k := (address % 16 + n - 1) / 16) (by omega)
  · refine iff_of_false id ?_
    rintro ⟨-, whole, -⟩
    exact mixed.2 (test.mpr whole)
  · rw [decide_eq_true_iff, value]
    have whole : ∀ j, j < (address % 16 + n - 1) / 16 →
        shadowFull (s.byte (s.index address + j)) := by
      intro j below
      exact test.mp (not_not.mp fun some => mixed ⟨by omega, some⟩) j below
    exact ⟨fun tail => ⟨⟨by omega, ready, inside⟩, whole, tail⟩, fun all => all.2.2⟩

/-- A tagged address is outside the window, so the fast tiers leave it. -/
theorem reached_of_inWindow (ctx : Context) {s : Shadow} {address : Nat}
    (inside : s.InWindow address) : reached ctx s address = address := by
  rw [reached, if_neg]
  exact fun tagged => tagged.2.1 inside

/-- The shadow byte of an address is that of the one the hardware reaches. -/
theorem reached_alias (ctx : Context) {s : Shadow} (ready : s.Ready) (address : Nat) :
    s.index (reached ctx s address) = s.index address ∧
      reached ctx s address % 16 = address % 16 ∧ reached ctx s address ≤ address := by
  have bounds := ready.bounds
  unfold reached
  split_ifs with tagged
  · rw [show 0x00FFFFFFFFFFFFFF = 2 ^ 56 - 1 from rfl, Nat.and_two_pow_sub_one_eq_mod,
      Shadow.index_eq_mod ready, Shadow.index_eq_mod ready]
    refine ⟨?_, by omega, by omega⟩
    have fits : 2 ^ (s.bits - 4) ∣ 2 ^ 52 := Nat.pow_dvd_pow 2 (by omega)
    rw [← Nat.mod_mod_of_dvd (address / 16) fits]
    congr 1
    omega
  · exact ⟨rfl, rfl, Nat.le_refl _⟩

/-- A range is addressable when the granules before its last one are whole and
the last one has the range's last byte. -/
theorem granules_sound (ctx : Context) {s : Shadow} {address n : Nat}
    (whole : ∀ j, j < (address % 16 + n - 1) / 16 → shadowFull (s.byte (s.index address + j)))
    (tail : s.Ready → reached ctx s address + n - 1 < 2 ^ s.bits →
      let v := s.byte (s.index address + (address % 16 + n - 1) / 16)
      shadowFull v ∨ ¬ shadowPoison v ∧ (address % 16 + n - 1) % 16 < shadowBytes v) :
    unaddressable ctx s (reached ctx s address) n = ∅ := by
  refine unaddressable_empty fun ready b low high inside => ?_
  obtain ⟨index, offset, -⟩ := reached_alias ctx ready address
  specialize tail ready
  rw [← index, ← offset] at whole tail
  generalize reached ctx s address = start at *
  rw [Shadow.index_eq_div ready (by omega)] at whole tail
  refine addressable_of_granules ctx ready (start / 16) (start + n - 1)
    (fun x from' below within => ?_) (fun within => ?_) (by omega) (by omega) inside
  · have here := whole (x / 16 - start / 16) (by omega)
    rwa [Shadow.of, Shadow.index_eq_div ready within,
      show x / 16 = start / 16 + (x / 16 - start / 16) by omega]
  · rw [Shadow.of, Shadow.index_eq_div ready within,
      show (start + n - 1) / 16 = start / 16 + (start % 16 + n - 1) / 16 by omega,
      show (start + n - 1) % 16 = (start % 16 + n - 1) % 16 by omega]
    exact tail within

theorem quickOk_sound (ctx : Context) {s : Shadow} {address n : Nat}
    (ok : quickOk s address n = true) : unaddressable ctx s address n = ∅ := by
  by_cases empty : n = 0
  · exact unaddressable_empty fun _ b low high => by omega
  · obtain ⟨⟨-, -, inside⟩, whole, tail⟩ := (quickOk_iff s address n empty).mp ok
    rw [← reached_of_inWindow ctx inside]
    exact granules_sound ctx whole fun _ _ => tail

theorem wholeEights_spec (s : Shadow) (first granules i : Nat) {stop : Nat}
    (done : wholeEights s first granules i = some stop) :
    ∀ k, i ≤ k → k < stop → shadowFull (s.byte (first + k)) := by
  fun_induction wholeEights s first granules i with
  | case1 i more mixed => simp at done
  | case2 i more clear ih =>
    intro k low high
    by_cases later : i + 8 ≤ k
    · exact ih done k later high
    · have bytes := (loadLE_and_signBits s.byte (first + i) 8 8).mp (not_not.mp clear)
      have here := bytes (k - i) (by omega) (by omega)
      rwa [show first + i + (k - i) = first + k by omega] at here
  | case3 i last =>
    cases done
    intro k low high
    omega

theorem wholeOnes_spec (s : Shadow) (first granules i : Nat)
    (done : wholeOnes s first granules i = true) :
    ∀ k, i ≤ k → k + 1 < granules → shadowFull (s.byte (first + k)) := by
  fun_induction wholeOnes s first granules i with
  | case1 i more mixed => simp at done
  | case2 i more whole ih =>
    intro k low high
    by_cases here : k = i
    · rw [here]
      exact not_not.mp whole
    · exact ih done k (by omega) high
  | case3 i last =>
    intro k low high
    omega

theorem allAddressable_sound (ctx : Context) {s : Shadow} {address n : Nat}
    (ok : allAddressable s address n = true) : unaddressable ctx s address n = ∅ := by
  refine unaddressable_empty fun ready b low high inside => ?_
  have narrow : 2 ^ s.bits ≤ 2 ^ 56 := Nat.pow_le_pow_right (by decide) ready.bounds.2.2
  unfold allAddressable at ok
  dsimp only at ok
  split_ifs at ok with cannot
  have short : ¬ 1 <<< 30 < n := fun long => cannot (.inr (.inl long))
  have within : s.InWindow ((address + n - 1) % 2 ^ 64) := by
    by_contra outside
    exact cannot (.inr (.inr (.inr (.inr (.inr outside)))))
  have last : (address + n - 1) % 2 ^ 64 = address + n - 1 := by
    refine Nat.mod_eq_of_lt ?_
    rw [Nat.shiftLeft_eq] at short
    omega
  have index : s.index address = address / 16 := Shadow.index_eq_div ready (by omega)
  rw [last, Shadow.inWindow_iff ready] at within
  simp only [last, index, Nat.shiftRight_eq_div_pow, show (2 : Nat) ^ 4 = 16 from rfl,
    show address + n - 1 &&& 15 = (address + n - 1) % 16 from
      Nat.and_two_pow_sub_one_eq_mod _ 4] at ok
  split at ok
  · simp at ok
  · next i eights =>
    split_ifs at ok with ones
    have head := wholeEights_spec s _ _ _ eights
    have rest := wholeOnes_spec s _ _ _ ones
    have tail := of_decide_eq_true ok
    refine addressable_of_granules ctx ready (address / 16) (address + n - 1)
      (fun x from' below within' => ?_) (fun _ => ?_) (by omega) (by omega) inside
    · rw [Shadow.of, Shadow.index_eq_div ready within',
        show x / 16 = address / 16 + (x / 16 - address / 16) by omega]
      by_cases early : x / 16 - address / 16 < i
      · exact head _ (by omega) early
      · exact rest _ (by omega) (by omega)
    · rwa [Shadow.of, Shadow.index_eq_div ready within,
        show (address + n - 1) / 16 =
          address / 16 + ((address + n - 1) / 16 - address / 16 + 1 - 1) by omega]

/-! ## The three tiers -/

theorem allAddressable_inWindow {s : Shadow} {address n : Nat}
    (ok : allAddressable s address n = true) : s.InWindow address := by
  unfold allAddressable at ok
  dsimp only at ok
  split_ifs at ok with cannot
  by_contra outside
  exact cannot (.inr (.inr (.inr (.inr (.inl outside)))))

/-- What either fast tier passes, the exact search passes. -/
theorem fast_sound (ctx : Context) {s : Shadow} {address n : Nat}
    (ok : (quickOk s address n || allAddressable s address n) = true) :
    unaddressable ctx s (reached ctx s address) n = ∅ := by
  rcases Bool.or_eq_true_iff.mp ok with quick | all
  · by_cases empty : n = 0
    · exact unaddressable_empty fun _ b low high => by omega
    · have inside := ((quickOk_iff s address n empty).mp quick).1.2.2
      rw [reached_of_inWindow ctx inside]
      exact quickOk_sound ctx quick
  · rw [reached_of_inWindow ctx (allAddressable_inWindow all)]
    exact allAddressable_sound ctx all

theorem firstUnaddressable_eq_none_iff (ctx : Context) (s : Shadow) (address n : Nat) :
    (firstUnaddressable ctx s address n).1 = none ↔
      unaddressable ctx s (reached ctx s address) n = ∅ := by
  obtain ⟨-, answer⟩ := firstUnaddressable_spec ctx s address n
  generalize firstUnaddressable ctx s address n = r at answer
  rcases r with ⟨_ | ⟨bad, v⟩, s'⟩
  · exact iff_of_true rfl answer
  · exact iff_of_false (by simp) (Set.nonempty_iff_ne_empty.mp ⟨bad, answer.1.1⟩)

theorem guardSlow_passes (ctx : Context) (s : Shadow) (address width : Nat) :
    (guardSlow ctx s address width).passes = true ↔
      unaddressable ctx s (reached ctx s address) width = ∅ := by
  rw [← firstUnaddressable_eq_none_iff, guardSlow]
  rcases firstUnaddressable ctx s address width with ⟨_ | ⟨bad, v⟩, s'⟩ <;> simp

theorem guardSlow_settles {ctx : Context} {s s' : Shadow} {address width : Nat}
    (passed : guardSlow ctx s address width = .ok s') : Settles ctx s s' := by
  have same := (firstUnaddressable_spec ctx s address width).1
  rw [guardSlow] at passed
  generalize firstUnaddressable ctx s address width = r at same passed
  rcases r with ⟨_ | ⟨bad, v⟩, s₁⟩
  · cases passed
    exact same
  · simp at passed

/-- A full check that passes leaves the granules of its range settled. -/
theorem guardSlow_settled {ctx : Context} {s s' : Shadow} {address width : Nat} (ready : s.Ready)
    (passed : guardSlow ctx s address width = .ok s') {x : Nat} (aligned : x % 16 = 0)
    (low : reached ctx s address / 16 ≤ x / 16) (high : x < reached ctx s address + width)
    (inside : x < 2 ^ s.bits) (nonempty : width ≠ 0) : s'.of x = settled ctx s x := by
  unfold guardSlow firstUnaddressable at passed
  generalize reached ctx s address = start at *
  have within : start < 2 ^ s.bits := by
    have granule := Shadow.two_pow_bits ready
    omega
  have decided : ¬ (width = 0 ∨ ¬ s.Ready ∨ ¬ s.InWindow start) := by
    rw [Shadow.inWindow_iff ready]
    exact not_or.mpr ⟨nonempty, not_or.mpr ⟨not_not.mpr ready, not_not.mpr within⟩⟩
  simp only [if_neg decided] at passed
  obtain ⟨starts, bound, part⟩ := decidedEnd_spec ready nonempty within
  obtain ⟨same, answer⟩ :=
    scan_spec ctx ready bound (start / 16 * 16) (by omega) (by omega) starts
  generalize scan ctx start (decidedEnd s start width) s (start / 16 * 16) = r at *
  rcases r with ⟨_ | ⟨bad, v⟩, s₁⟩
  · cases passed
    exact answer.2 x (by omega) ((part x).mpr ⟨high, inside⟩) aligned
  · simp at passed

theorem range_passes (ctx : Context) (s : Shadow) (address n : Nat) :
    (range ctx s address n).passes = true ↔
      unaddressable ctx s (reached ctx s address) n = ∅ := by
  rw [range]
  split_ifs with fast
  · exact iff_of_true rfl (fast_sound ctx fast)
  · rw [← firstUnaddressable_eq_none_iff]
    rcases firstUnaddressable ctx s address n with ⟨_ | ⟨bad, v⟩, s'⟩ <;> simp

theorem rangeOk_iff (ctx : Context) (s : Shadow) (address n : Nat) :
    (rangeOk ctx s address n).1 = true ↔
      unaddressable ctx s (reached ctx s address) n = ∅ := by
  rw [rangeOk]
  split_ifs with fast
  · exact iff_of_true rfl (fast_sound ctx fast)
  · rw [← firstUnaddressable_eq_none_iff]
    rcases firstUnaddressable ctx s address n with ⟨_ | ⟨bad, v⟩, s'⟩ <;> simp

/-- The three tiers decide one specification, and the exact search returns
the least unaddressable byte. -/
theorem range_tiers (ctx : Context) (s : Shadow) (address n : Nat) :
    (quickOk s address n = true → unaddressable ctx s address n = ∅) ∧
      (allAddressable s address n = true → unaddressable ctx s address n = ∅) ∧
      ((range ctx s address n).passes = false ↔
        (unaddressable ctx s (reached ctx s address) n).Nonempty) ∧
      ((rangeOk ctx s address n).1 = false ↔
        (unaddressable ctx s (reached ctx s address) n).Nonempty) ∧
      ∀ bad v, (firstUnaddressable ctx s address n).1 = some (bad, v) →
        IsLeast (unaddressable ctx s (reached ctx s address) n) bad := by
  refine ⟨quickOk_sound ctx, allAddressable_sound ctx, ?_, ?_, ?_⟩
  · rw [Set.nonempty_iff_ne_empty, ← Bool.not_eq_true]
    exact not_congr (range_passes ctx s address n)
  · rw [Set.nonempty_iff_ne_empty, ← Bool.not_eq_true]
    exact not_congr (rangeOk_iff ctx s address n)
  · intro bad v found
    have answer := (firstUnaddressable_spec ctx s address n).2
    rw [found] at answer
    exact answer.1

end WeaveC.Runtime
