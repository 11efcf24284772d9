import WeaveC.Runtime.ShadowWrite
import WeaveC.Runtime.Decided
import Mathlib.Data.Set.Basic

/-!
# Mapped memory

The `mmap` and `munmap` wrappers clear the shadow of the bytes they were asked
for; the kernel acts on whole pages.
-/

namespace WeaveC.Runtime

/-! ## The wrappers -/

/-- A call of a wrapper with the kernel's answer, or a write of a shadow byte by
anything else. -/
inductive MapEvent where
  | mmap (length : Nat) (mapped : Option Nat)
  | munmap (address length : Nat) (unmapped : Bool)
  | write (i : Nat) (v : UInt8)

namespace MapEvent

/-- `__weavec_rt_mmap` and `__weavec_rt_munmap`, after the kernel's answer. -/
def run (s : Shadow) : MapEvent → Shadow
  | mmap length (some mapped) => s.clear mapped (mapped + length)
  | mmap _ none => s
  | munmap address length unmapped => if unmapped then s.clear address (address + length) else s
  | write i v => s.put i v

/-- Where a successful call's bytes begin, and how many it was asked for. -/
def range : MapEvent → Option (Nat × Nat)
  | mmap length (some mapped) => some (mapped, length)
  | munmap address length true => some (address, length)
  | _ => none

end MapEvent

def roundUp (unit n : Nat) : Nat := (n + unit - 1) / unit * unit

/-- A successful call as the kernel serves it: some whole pages of user
addresses. -/
structure Served (page bits start length : Nat) : Prop where
  aligned : page ∣ start
  some : 0 < length
  user : start + roundUp page length ≤ 2 ^ bits

/-- After the call every byte of its pages is addressable. -/
def LeavesAddressable (ctx : Context) (page : Nat) (s : Shadow) (e : MapEvent) : Prop :=
  ∀ start length, e.range = some (start, length) →
    unaddressable ctx (e.run s) start (roundUp page length) = ∅

/-- The last page's bytes behind the last granule asked for were addressable
before the call. -/
def TailAddressable (ctx : Context) (page : Nat) (s : Shadow) (e : MapEvent) : Prop :=
  ∀ start length, e.range = some (start, length) →
    unaddressable ctx s (start + roundUp 16 length) (roundUp page length - roundUp 16 length) = ∅

/-- What holds of each event of a sequence and the shadow it starts from. -/
def Along (P : Shadow → MapEvent → Prop) : Shadow → List MapEvent → Prop
  | _, [] => True
  | s, e :: es => P s e ∧ Along P (e.run s) es

/-! ## What they clear -/

theorem roundUp_spec {unit : Nat} (n : Nat) (positive : 0 < unit) :
    n ≤ roundUp unit n ∧ roundUp unit n < n + unit ∧ unit ∣ roundUp unit n := by
  have split := Nat.div_add_mod (n + unit - 1) unit
  have rest := Nat.mod_lt (n + unit - 1) positive
  unfold roundUp
  rw [Nat.mul_comm] at split
  exact ⟨by omega, by omega, Dvd.intro_left _ rfl⟩

theorem roundUp_le_roundUp {unit page : Nat} (n : Nat) (pages : unit ∣ page) (positive : 0 < page) :
    roundUp unit n ≤ roundUp page n := by
  obtain ⟨above, -, multiple⟩ := roundUp_spec n positive
  obtain ⟨k, eq⟩ := pages.trans multiple
  have some : 0 < unit := Nat.pos_of_dvd_of_pos pages positive
  have split := Nat.div_mul_le_self (n + unit - 1) unit
  unfold roundUp at eq above ⊢
  rw [eq] at above ⊢
  rw [Nat.mul_comm unit k]
  refine Nat.mul_le_mul_right unit (Nat.le_of_lt_succ ((Nat.div_lt_iff_lt_mul some).mpr ?_))
  rw [Nat.succ_mul, Nat.mul_comm k]
  omega

theorem sameWindow_run (s : Shadow) (e : MapEvent) : Shadow.SameWindow s (e.run s) := by
  cases e with
  | mmap length mapped =>
      cases mapped with
      | none => exact .refl s
      | some mapped => exact Shadow.sameWindow_clear _ _ _
  | munmap address length unmapped =>
      cases unmapped with
      | false => exact .refl s
      | true => exact Shadow.sameWindow_clear _ _ _
  | write i v => exact ⟨rfl, rfl⟩

theorem run_eq_clear {s : Shadow} {e : MapEvent} {start length : Nat}
    (served : e.range = some (start, length)) : e.run s = s.clear start (start + length) := by
  cases e with
  | mmap length mapped =>
      cases mapped with
      | none => cases served
      | some mapped =>
          cases served
          rfl
  | munmap address length unmapped =>
      cases unmapped with
      | false => cases served
      | true =>
          cases served
          rfl
  | write i v => cases served

section Clear

variable {ctx : Context} {s : Shadow} {page start length : Nat}

/-- A cleared range reads as before from the end of its last granule on. -/
theorem clear_addressable (ready : s.Ready) (granule : 16 ∣ start) (some : 0 < length)
    (room : start + roundUp 16 length ≤ 2 ^ s.bits) {b : Nat} (first : start ≤ b)
    (user : b < 2 ^ s.bits) :
    Addressable ctx (s.clear start (start + length)) b ↔
      b < start + roundUp 16 length ∨ Addressable ctx s b := by
  have rounded := roundUp_spec length (by decide : 0 < 16)
  have same := Shadow.sameWindow_clear s start (start + length)
  have inside {a : Nat} (below : a < 2 ^ s.bits) : s.InWindow a :=
    (Shadow.inWindow_iff ready a).mpr below
  have byte := Shadow.clear_byte ready (by omega : start < start + length)
    (inside (by omega)) (inside (by omega : start + length - 1 < _)) (b / 16)
  have user' : b < 2 ^ (s.clear start (start + length)).bits := by
    rw [same.bits]
    exact user
  by_cases within : b < start + roundUp 16 length
  · refine iff_of_true ?_ (.inl within)
    have full : shadowFull ((s.clear start (start + length)).of (b / 16 * 16)) := by
      rw [of_granule (same.ready ready) user', byte, if_pos]
      · decide
      · unfold roundUp at within
        omega
    refine addressable_of_full ?_
    rw [settled_of_full full]
    exact full
  · rw [or_iff_right within]
    refine addressable_congr ready (same.ready ready) user user' ?_
    rw [byte, if_neg]
    unfold roundUp at within
    omega

theorem unaddressable_clear_iff (pages : 16 ∣ page) (positive : 0 < page)
    (served : Served page s.bits start length) :
    unaddressable ctx (s.clear start (start + length)) start (roundUp page length) = ∅ ↔
      unaddressable ctx s (start + roundUp 16 length)
        (roundUp page length - roundUp 16 length) = ∅ := by
  have less := roundUp_le_roundUp length pages positive
  have user := served.user
  have same := Shadow.sameWindow_clear s start (start + length)
  have addressable (ready : s.Ready) {b : Nat} (first : start ≤ b) (below : b < 2 ^ s.bits) :=
    @clear_addressable ctx s start length ready (pages.trans served.aligned) served.some (by omega)
      b first below
  rw [Set.eq_empty_iff_forall_notMem, Set.eq_empty_iff_forall_notMem]
  constructor
  · rintro clean b ⟨ready, first, last, inside, poison⟩
    have below := (Shadow.inWindow_iff ready b).mp inside
    refine clean b ⟨same.ready ready, by omega, by omega, (same.inWindow b).mpr inside, ?_⟩
    rw [addressable ready (by omega) below]
    rintro (within | there)
    · omega
    · exact poison there
  · rintro clean b ⟨ready', first, last, inside', poison⟩
    have ready : s.Ready := by
      rw [Shadow.Ready, ← same.mask]
      exact ready'
    have inside := (same.inWindow b).mp inside'
    have below := (Shadow.inWindow_iff ready b).mp inside
    rw [addressable ready first below] at poison
    obtain ⟨beyond, poison⟩ := not_or.mp poison
    exact clean b ⟨ready, by omega, by omega, inside, poison⟩

end Clear

/-- Along a sequence of calls among any other writes, every successful call
leaves its pages addressable exactly when the bytes of each last page that were
not asked for were so before. -/
theorem mapped_addressable_iff (ctx : Context) {page : Nat} (pages : 16 ∣ page)
    (positive : 0 < page) (s : Shadow) (es : List MapEvent)
    (served : ∀ e ∈ es, ∀ start length, e.range = some (start, length) →
      Served page s.bits start length) :
    Along (LeavesAddressable ctx page) s es ↔ Along (TailAddressable ctx page) s es := by
  induction es generalizing s with
  | nil => exact Iff.rfl
  | cons e es inductionHypothesis =>
      have bits := (sameWindow_run s e).bits
      have rest := inductionHypothesis (e.run s) (by
        rw [bits]
        exact fun e mem => served e (List.mem_cons_of_mem _ mem))
      refine and_congr ?_ rest
      refine forall_congr' fun start => forall_congr' fun length => forall_congr' fun range => ?_
      rw [run_eq_clear range]
      exact unaddressable_clear_iff pages positive (served e List.mem_cons_self start length range)

/-- A poisoned byte on a page, and the first `length` bytes of the page mapped. -/
def mappedAgain (length : Nat) : List MapEvent :=
  [.write 0x1080 ShadowValue.user, .mmap length (some 0x10000)]

theorem mappedAgain_served {length : Nat} (some : 0 < length) (page : roundUp 4096 length ≤ 4096) :
    ∀ e ∈ mappedAgain length, ∀ start n, e.range = .some (start, n) →
      Served 4096 Shadow.clean.bits start n := by
  intro e mem start n range
  rcases List.mem_cons.mp mem with rfl | mem
  · cases range
  · obtain rfl := List.mem_singleton.mp mem
    cases range
    refine ⟨by decide, some, ?_⟩
    change 0x10000 + roundUp 4096 length ≤ 2 ^ 48
    omega

theorem mapped_addressable_page :
    Along (LeavesAddressable .bare 4096) Shadow.clean (mappedAgain 4096) := by
  refine (mapped_addressable_iff .bare (by decide) (by decide) Shadow.clean (mappedAgain 4096)
    (mappedAgain_served (by decide) (by decide))).mpr ⟨?_, ?_, trivial⟩
  · intro start length range
    cases range
  · intro start length range
    cases range
    refine Set.eq_empty_iff_forall_notMem.mpr ?_
    rintro b ⟨-, first, last, -⟩
    unfold roundUp at first last
    omega

/-- Behind the 100 bytes asked for the page keeps the poison. -/
theorem mapped_poisoned :
    ¬ Along (LeavesAddressable .bare 4096) Shadow.clean (mappedAgain 100) := by
  rintro ⟨-, clean, -⟩
  let poisoned := Shadow.clean.put 0x1080 ShadowValue.user
  have served : Served 4096 poisoned.bits 0x10000 100 := ⟨by decide, by decide, by decide⟩
  have cleared : unaddressable .bare (poisoned.clear 0x10000 (0x10000 + 100)) 0x10000
      (roundUp 4096 100) = ∅ := clean 0x10000 100 rfl
  have tail := (unaddressable_clear_iff (by decide) (by decide) served).mp cleared
  refine Set.eq_empty_iff_forall_notMem.mp tail 0x10800 ⟨?_, by decide, by decide, ?_, ?_⟩
  · decide
  · decide
  · have value : (Shadow.clean.put 0x1080 ShadowValue.user).byte (0x10800 / 16) =
        ShadowValue.user := rfl
    rw [addressable_iff (by decide) (by decide) (by rw [value]; decide), value]
    decide

end WeaveC.Runtime
