import WeaveC.Sweep.Internal
import WeaveC.Library.Transition
import Mathlib.Data.List.Pairwise

/-!
# What is registered is the runtime's

Each range of the table is a mapping the runtime holds, as long as no
reservation is unmapped after it was registered; so the scan leaves no word of
the program out.
-/

namespace WeaveC.Sweep.Internal

open WeaveC.Library

/-! ## The table -/

instance : Std.Symm Span.Apart := ⟨fun _ _ apart => Or.symm apart⟩

theorem getLast?_cons_dropLast {rest : List Span} {last : Span} (ends : rest.getLast? = some last) :
    (last :: rest.dropLast).Perm rest := by
  have split := List.dropLast_append_getLast? last ends
  calc (last :: rest.dropLast).Perm (rest.dropLast ++ [last]) :=
        (List.perm_append_singleton last rest.dropLast).symm
    _ = rest := split

theorem drop_perm (low : Nat) (table : List Span) :
    (drop low table).Perm (table.eraseP fun r => r.low = low) := by
  induction table with
  | nil => exact List.Perm.refl _
  | cons r rest ih =>
      unfold drop
      by_cases here : r.low = low
      · rw [if_pos here, List.eraseP_cons_of_pos (by simpa using here)]
        cases ends : rest.getLast? with
        | none =>
            obtain rfl := List.getLast?_eq_none_iff.mp ends
            exact List.Perm.refl _
        | some last => exact getLast?_cons_dropLast ends
      · rw [if_neg here, List.eraseP_cons_of_neg (by simpa using here)]
        exact ih.cons r

theorem sort_perm (table : List Span) : (sort table).Perm table :=
  List.perm_insertionSort _ table

theorem mem_register {r q : Span} {table : List Span} (mem : q ∈ register r table) :
    q ∈ table ∨ q = r := by
  unfold register at mem
  split at mem
  · simpa using mem
  · exact .inl mem

/-! ## What the runtime holds -/

/-- The runtime's mappings are apart from one another and from the program's,
and the table lists some of them, each once. -/
structure Holds (owned program table : List Span) (hugeTable mapsText : Option Span) : Prop where
  apart : owned.Pairwise Span.Apart
  bytes : ∀ r ∈ owned, r.low < r.high
  away : ∀ r ∈ owned, ∀ q ∈ program, Span.Apart r q
  known : ∀ r ∈ table, r ∈ owned
  once : table.Nodup
  huge : ∀ r, hugeTable = some r → r ∈ owned
  text : ∀ r, mapsText = some r → r ∈ owned
  distinct : ∀ r, hugeTable = some r → mapsText ≠ some r

namespace Holds

variable {owned program table : List Span} {hugeTable mapsText : Option Span} {r : Span}

/-- A mapping the operation in progress has made and stored nowhere yet. -/
structure Fresh (owned : List Span) (hugeTable mapsText : Option Span) (r : Span) : Prop where
  mine : r ∈ owned
  notHuge : hugeTable ≠ some r
  notText : mapsText ≠ some r

theorem eq_of_low (holds : Holds owned program table hugeTable mapsText) {q : Span}
    (mem : r ∈ owned) (mem' : q ∈ owned) (same : q.low = r.low) : q = r := by
  by_contra different
  have apart := holds.apart.forall mem' mem different
  have some_bytes := holds.bytes r mem
  have some_bytes' := holds.bytes q mem'
  unfold Span.Apart at apart
  omega

theorem mapped (holds : Holds owned program table hugeTable mapsText) (some_bytes : r.low < r.high)
    (apart : ∀ q ∈ owned, Span.Apart r q) (away : ∀ q ∈ program, Span.Apart r q) :
    Holds (r :: owned) program table hugeTable mapsText ∧
      Fresh (r :: owned) hugeTable mapsText r ∧ r ∉ table := by
  have new : r ∉ owned := by
    intro mem
    have overlap := apart r mem
    unfold Span.Apart at overlap
    omega
  refine ⟨?_, ⟨List.mem_cons_self, ?_, ?_⟩, fun mem => new (holds.known r mem)⟩
  · exact
      { apart := List.pairwise_cons.mpr ⟨apart, holds.apart⟩
        bytes := List.forall_mem_cons.mpr ⟨some_bytes, holds.bytes⟩
        away := List.forall_mem_cons.mpr ⟨away, holds.away⟩
        known := fun q mem => List.mem_cons_of_mem r (holds.known q mem)
        once := holds.once
        huge := fun q held => List.mem_cons_of_mem r (holds.huge q held)
        text := fun q held => List.mem_cons_of_mem r (holds.text q held)
        distinct := holds.distinct }
  · exact fun held => new (holds.huge r held)
  · exact fun held => new (holds.text r held)

theorem registered (holds : Holds owned program table hugeTable mapsText)
    (mine : r ∈ owned) (new : r ∉ table) :
    Holds owned program (register r table) hugeTable mapsText := by
  refine { holds with known := ?_, once := ?_ }
  · intro q mem
    rcases mem_register mem with mem | rfl
    · exact holds.known q mem
    · exact mine
  · unfold register
    split
    · exact List.nodup_append_comm.mp (List.nodup_cons.mpr ⟨new, holds.once⟩)
    · exact holds.once

/-- Once dropped a mapping is in the table no more. -/
theorem dropped (holds : Holds owned program table hugeTable mapsText) (mine : r ∈ owned) :
    Holds owned program (drop r.low table) hugeTable mapsText ∧ r ∉ drop r.low table := by
  have perm := drop_perm r.low table
  refine ⟨{ holds with known := ?_, once := ?_ }, ?_⟩
  · intro q mem
    exact holds.known q (List.mem_of_mem_eraseP (perm.mem_iff.mp mem))
  · exact perm.nodup_iff.mpr (holds.once.sublist List.eraseP_sublist)
  · intro mem
    have listed := List.mem_of_mem_eraseP (perm.mem_iff.mp mem)
    obtain ⟨q, before, later, -, low, split, erased⟩ :=
      List.exists_of_eraseP (p := fun q => decide (q.low = r.low)) listed (decide_eq_true rfl)
    obtain rfl : q = r := by
      refine holds.eq_of_low mine (holds.known q ?_) (of_decide_eq_true low)
      rw [split]
      exact List.mem_append_right before List.mem_cons_self
    have once := holds.once
    rw [split] at once
    rw [perm.mem_iff, erased] at mem
    exact (List.nodup_middle.mp once).notMem mem

theorem sorted (holds : Holds owned program table hugeTable mapsText) :
    Holds owned program (sort table) hugeTable mapsText :=
  { holds with
    known := fun q mem => holds.known q ((sort_perm table).mem_iff.mp mem)
    once := (sort_perm table).nodup_iff.mpr holds.once }

theorem erased (holds : Holds owned program table hugeTable mapsText) (unlisted : r ∉ table)
    {hugeTable' mapsText' : Option Span} (huge : ∀ q, hugeTable' = some q → q ∈ owned ∧ q ≠ r)
    (text : ∀ q, mapsText' = some q → q ∈ owned ∧ q ≠ r)
    (distinct : ∀ q, hugeTable' = some q → mapsText' ≠ some q) :
    Holds (owned.erase r) program table hugeTable' mapsText' where
  apart := holds.apart.sublist List.erase_sublist
  bytes q mem := holds.bytes q (List.mem_of_mem_erase mem)
  away q mem := holds.away q (List.mem_of_mem_erase mem)
  known q mem := (List.mem_erase_of_ne (ne_of_mem_of_not_mem mem unlisted)).mpr (holds.known q mem)
  once := holds.once
  huge q held := (List.mem_erase_of_ne (huge q held).2).mpr (huge q held).1
  text q held := (List.mem_erase_of_ne (text q held).2).mpr (text q held).1
  distinct := distinct

theorem stored (holds : Holds owned program table hugeTable mapsText)
    {hugeTable' mapsText' : Option Span} (huge : ∀ q, hugeTable' = some q → q ∈ owned)
    (text : ∀ q, mapsText' = some q → q ∈ owned)
    (distinct : ∀ q, hugeTable' = some q → mapsText' ≠ some q) :
    Holds owned program table hugeTable' mapsText' :=
  { apart := holds.apart, bytes := holds.bytes, away := holds.away, known := holds.known,
    once := holds.once, huge, text, distinct }

theorem programMapped (holds : Holds owned program table hugeTable mapsText)
    (apart : ∀ q ∈ owned, Span.Apart r q) :
    Holds owned (r :: program) table hugeTable mapsText :=
  { holds with
    away := fun q mem => List.forall_mem_cons.mpr ⟨Or.symm (apart q mem), holds.away q mem⟩ }

theorem programUnmapped (holds : Holds owned program table hugeTable mapsText) :
    Holds owned (program.erase r) table hugeTable mapsText :=
  { holds with away := fun q mem p mem' => holds.away q mem p (List.mem_of_mem_erase mem') }

end Holds

/-! ## Every state -/

namespace State

variable (s : State)

/-- What is so at the point the runtime is at. -/
def Here : Prop :=
  match s.point with
  | .attributes r | .mapped _ r =>
      Holds.Fresh s.owned s.hugeTable s.mapsText r ∧ r ∉ s.table
  | .registered _ r => Holds.Fresh s.owned s.hugeTable s.mapsText r
  | .dropped u r =>
      Holds.Fresh s.owned s.hugeTable s.mapsText r ∧ ∀ old, s.replaced u = some old → old ∉ s.table
  | .refused _ _ => False
  | .blockMapping _ | .blockMapped _ | .blockRefused _ | .mapping (.hugeTable _) =>
      s.table = s.begun
  | _ => True

/-- An operation that failed and unmapped left the table as it was. -/
def Failed : Prop := s.unmapped = true → s.point = .idle ∧ ∀ r, r ∈ s.table ↔ r ∈ s.begun

structure Inv : Prop where
  holds : Holds s.owned s.program s.table s.hugeTable s.mapsText
  here : s.Here
  failed : s.Failed

end State

/-- A step at which no registered reservation is refused. -/
def NotRefused (s : State) (e : Event) : Prop :=
  match s.point, e with
  | .registered (.arena _) _, .mprotect false => False
  | _, _ => True

instance (s : State) (e : Event) : Decidable (NotRefused s e) := by
  unfold NotRefused
  split <;> infer_instance

variable {cfg : Config} {s s' : State} {e : Event}

theorem start_inv (program : List Span) : (start program).Inv where
  holds :=
    { apart := List.Pairwise.nil
      bytes := nofun
      away := nofun
      known := nofun
      once := List.nodup_nil
      huge := nofun
      text := nofun
      distinct := nofun }
  here := trivial
  failed := nofun

/-- A state that differs in nothing the invariant reads, at a point where nothing is asked. -/
theorem State.Inv.begun (inv : s.Inv) {point : Point}
    (here : State.Here (s.begin' point)) : (s.begin' point).Inv where
  holds := inv.holds
  here := here
  failed := nofun

/-- In the middle of an operation nothing has failed. -/
theorem State.Inv.busy (inv : s.Inv) (middle : s.point ≠ .idle) : s.unmapped = false := by
  by_contra failed
  exact middle (inv.failed (by simpa using failed)).1

theorem State.failed_of (busy : s.unmapped = false) : s.Failed :=
  fun failed => nomatch busy.symm.trans failed

theorem prepareMarks_inv (regions : List Nat) (holds : Holds s.owned s.program s.table s.hugeTable
    s.mapsText) (busy : s.unmapped = false) : (s.prepareMarks regions).Inv := by
  induction regions with
  | nil =>
      exact ⟨holds, trivial, State.failed_of busy⟩
  | cons region rest ih =>
      unfold State.prepareMarks
      split
      · exact ih
      · exact ⟨holds, trivial, State.failed_of busy⟩

theorem begins_inv (inv : s.Inv) (idle : s.point = .idle) (taken : s.begins cfg e = some s') :
    s'.Inv := by
  cases e with
  | initialize' =>
      simp only [State.begins] at taken
      split at taken
      · cases taken
        exact inv
      · cases taken
        exact ⟨inv.holds, trivial, nofun⟩
  | hugeAlloc size alignment =>
      simp only [State.begins] at taken
      split at taken
      · cases taken
        exact inv
      · cases taken
        exact inv.begun rfl
  | prepareMarks wanted =>
      cases taken
      exact prepareMarks_inv wanted inv.holds rfl
  | startWorkers =>
      cases taken
      exact inv.begun trivial
  | mapWorld =>
      cases taken
      split
      · exact inv
      · exact inv.begun trivial
  | readMaps =>
      cases taken
      exact inv.begun trivial
  | sortInternal =>
      cases taken
      refine ⟨inv.holds.sorted, ?_, ?_⟩
      · simp only [State.Here, idle]
      · intro failed
        refine ⟨idle, fun r => ?_⟩
        exact ((sort_perm s.table).mem_iff).trans ((inv.failed failed).2 r)
  | recycle block =>
      simp only [State.begins] at taken
      split at taken
      · cases taken
        refine ⟨inv.holds.programUnmapped, ?_, inv.failed⟩
        simp only [State.Here, idle]
      · cases taken
  | _ => cases taken

theorem unavailable_inv (inv : s.Inv) {u : Use} (here : s.point = .mapping u) :
    (s.unavailable u).Inv := by
  have busy := inv.busy (by rw [here]; nofun)
  cases u with
  | hugeTable block =>
      have unchanged := inv.here
      simp only [State.Here, here] at unchanged
      exact ⟨inv.holds, unchanged, State.failed_of busy⟩
  | shadow => exact inv.begun trivial
  | _ => exact ⟨inv.holds, trivial, State.failed_of busy⟩

theorem store_inv {u : Use} {r : Span} (inv : s.Inv) (busy : s.unmapped = false)
    (fresh : Holds.Fresh s.owned s.hugeTable s.mapsText r)
    (stores : (∃ block, u = .hugeTable block) ∨ ∃ used, u = .text used) :
    (s.store u r).Inv := by
  rcases stores with ⟨block, rfl⟩ | ⟨used, rfl⟩
  · refine ⟨inv.holds.stored ?_ inv.holds.text ?_, trivial, State.failed_of busy⟩
    · rintro q held
      cases held
      exact fresh.mine
    · rintro q held
      cases held
      exact fresh.notText
  · refine ⟨inv.holds.stored inv.holds.huge ?_ ?_, trivial, State.failed_of busy⟩
    · rintro q held
      cases held
      exact fresh.mine
    · rintro q held held'
      cases held'
      exact fresh.notHuge held

theorem afterRegister_inv (inv : s.Inv) {u : Use} {r : Span} (here : s.point = .registered u r)
    (allowed : NotRefused s e) (taken : s.afterRegister u r e = some s') : s'.Inv := by
  have busy := inv.busy (by rw [here]; nofun)
  have fresh := inv.here
  simp only [State.Here, here] at fresh
  cases e with
  | mprotect ok =>
      cases u with
      | arena shift =>
          cases ok with
          | true =>
              cases taken
              exact ⟨inv.holds, trivial, State.failed_of busy⟩
          | false =>
              simp only [NotRefused, here] at allowed
      | _ => cases taken
  | create ok =>
      cases u with
      | stack =>
          cases ok with
          | true =>
              cases taken
              exact ⟨inv.holds, trivial, State.failed_of busy⟩
          | false =>
              cases taken
              exact ⟨inv.holds, trivial, State.failed_of busy⟩
      | _ => cases taken
  | call =>
      cases u with
      | shadow =>
          cases taken
          exact ⟨inv.holds, trivial, nofun⟩
      | marks region rest =>
          cases taken
          exact prepareMarks_inv rest inv.holds busy
      | world =>
          cases taken
          exact ⟨inv.holds, trivial, State.failed_of busy⟩
      | work =>
          cases taken
          exact ⟨inv.holds, trivial, State.failed_of busy⟩
      | hugeTable block =>
          simp only [State.afterRegister, State.replaced] at taken
          split at taken
          · cases taken
            exact store_inv inv busy fresh (.inl ⟨block, rfl⟩)
          · rename_i old held
            cases taken
            obtain ⟨holds, gone⟩ := inv.holds.dropped (inv.holds.huge old held)
            refine ⟨holds, ⟨fresh, ?_⟩, State.failed_of busy⟩
            intro q replaced
            cases held.symm.trans replaced
            exact gone
      | text used =>
          simp only [State.afterRegister, State.replaced] at taken
          split at taken
          · cases taken
            exact store_inv inv busy fresh (.inr ⟨used, rfl⟩)
          · rename_i old held
            cases taken
            obtain ⟨holds, gone⟩ := inv.holds.dropped (inv.holds.text old held)
            refine ⟨holds, ⟨fresh, ?_⟩, State.failed_of busy⟩
            intro q replaced
            cases held.symm.trans replaced
            exact gone
      | arena shift => cases taken
      | stack => cases taken
  | _ => cases taken

/-- The old table is unmapped and the new one takes its place. -/
theorem dropped_inv (inv : s.Inv) {u : Use} {r old : Span} (here : s.point = .dropped u r)
    (replaced : s.replaced u = some old) :
    ({ s with owned := s.owned.erase old }.store u r).Inv := by
  have busy := inv.busy (by rw [here]; nofun)
  have known := inv.here
  simp only [State.Here, here] at known
  obtain ⟨fresh, gone⟩ := known
  cases u with
  | hugeTable block =>
      refine ⟨inv.holds.erased (gone old replaced) ?_ ?_ ?_, trivial, State.failed_of busy⟩
      · rintro q held
        cases held
        refine ⟨fresh.mine, ?_⟩
        rintro rfl
        exact fresh.notHuge replaced
      · intro q held
        refine ⟨inv.holds.text q held, ?_⟩
        rintro rfl
        exact inv.holds.distinct q replaced held
      · rintro q held
        cases held
        exact fresh.notText
  | text used =>
      refine ⟨inv.holds.erased (gone old replaced) ?_ ?_ ?_, trivial, State.failed_of busy⟩
      · intro q held
        refine ⟨inv.holds.huge q held, ?_⟩
        rintro rfl
        exact inv.holds.distinct q held replaced
      · rintro q held
        cases held
        refine ⟨fresh.mine, ?_⟩
        rintro rfl
        exact fresh.notText replaced
      · rintro q held held'
        cases held'
        exact fresh.notHuge held
  | _ => cases replaced

theorem mapping_inv (inv : s.Inv) {u : Use} (here : s.point = .mapping u) {r : Span}
    (free : s.Free r) :
    State.Inv { s with owned := r :: s.owned,
                       point := if u = .stack then .attributes r else .mapped u r } := by
  have busy := inv.busy (by rw [here]; nofun)
  obtain ⟨holds, fresh, new⟩ := inv.holds.mapped free.1 free.2.1 free.2.2
  refine ⟨holds, ?_, State.failed_of busy⟩
  by_cases worker : u = .stack
  · simp only [State.Here, worker, if_true]
    exact ⟨fresh, new⟩
  · simp only [State.Here, worker, if_false]
    exact ⟨fresh, new⟩

theorem step_program {r : Span} (inv : s.Inv) (e : Event)
    (which : e = .programMap r ∨ e = .programUnmap r) (taken : step cfg s e = some s') :
    s'.Inv := by
  rcases which with rfl | rfl
  · simp only [step] at taken
    split at taken
    · rename_i free
      cases taken
      exact ⟨inv.holds.programMapped free.2.1, inv.here, inv.failed⟩
    · cases taken
  · simp only [step] at taken
    split at taken
    · cases taken
      exact ⟨inv.holds.programUnmapped, inv.here, inv.failed⟩
    · cases taken

theorem step_inv (inv : s.Inv) (allowed : NotRefused s e) (taken : step cfg s e = some s') :
    s'.Inv := by
  by_cases program : ∃ r, e = .programMap r ∨ e = .programUnmap r
  · obtain ⟨r, which⟩ := program
    exact step_program inv e which taken
  have own : step cfg s e = some s' := taken
  have ours : ∀ r, e ≠ .programMap r ∧ e ≠ .programUnmap r :=
    fun r => not_or.mp fun which => program ⟨r, which⟩
  clear program
  have known := inv.here
  unfold step at taken
  split at taken
  · exact absurd rfl (ours _).1
  · exact absurd rfl (ours _).2
  clear own
  split at taken
  · rename_i idle
    exact begins_inv inv idle taken
  · rename_i u here
    split at taken
    · cases taken
      exact unavailable_inv inv here
    · simp only at taken
      split at taken
      · rename_i free
        cases taken
        exact mapping_inv inv here free
      · cases taken
    · cases taken
  · rename_i r here
    simp only [State.Here, here] at known
    have busy := inv.busy (by rw [here]; nofun)
    split at taken
    · cases taken
      split
      · exact ⟨inv.holds, known, State.failed_of busy⟩
      · exact ⟨inv.holds, trivial, State.failed_of busy⟩
    · cases taken
  · rename_i u r here
    simp only [State.Here, here] at known
    have busy := inv.busy (by rw [here]; nofun)
    split at taken
    · cases taken
      exact ⟨inv.holds.registered known.1.mine known.2, known.1, State.failed_of busy⟩
    · cases taken
  · rename_i u r here
    exact afterRegister_inv inv here allowed taken
  · rename_i u r here
    split at taken
    · cases taken
      exact dropped_inv inv here ‹s.replaced u = some _›
    · cases taken
  · rename_i shift r here
    simp only [State.Here, here] at known
  · rename_i shift here
    have busy := inv.busy (by rw [here]; nofun)
    split at taken
    · cases taken
      split
      · exact inv.begun trivial
      · exact ⟨inv.holds, trivial, State.failed_of busy⟩
    · cases taken
  · rename_i bytes here
    simp only [State.Here, here] at known
    have busy := inv.busy (by rw [here]; nofun)
    split at taken
    · cases taken
      exact ⟨inv.holds, trivial, State.failed_of busy⟩
    · simp only at taken
      split at taken
      · rename_i free
        cases taken
        exact ⟨inv.holds.programMapped free.2.1, known, State.failed_of busy⟩
      · cases taken
    · cases taken
  · rename_i block here
    simp only [State.Here, here] at known
    have busy := inv.busy (by rw [here]; nofun)
    split at taken
    · cases taken
      split
      · exact ⟨inv.holds, known, State.failed_of busy⟩
      · exact ⟨inv.holds, trivial, State.failed_of busy⟩
    · cases taken
  · rename_i block here
    simp only [State.Here, here] at known
    split at taken
    · cases taken
      refine ⟨inv.holds.programUnmapped, trivial, fun _ => ⟨rfl, fun r => ?_⟩⟩
      rw [known]
    · cases taken
  · rename_i here
    have busy := inv.busy (by rw [here]; nofun)
    split at taken
    · cases taken
      split
      · exact ⟨inv.holds, trivial, State.failed_of busy⟩
      · exact ⟨inv.holds, trivial, State.failed_of busy⟩
    · cases taken
  · rename_i used here
    have busy := inv.busy (by rw [here]; nofun)
    split at taken
    · split at taken
      · cases taken
        exact ⟨inv.holds, trivial, State.failed_of busy⟩
      · cases taken
    · split at taken
      · cases taken
        exact ⟨inv.holds, trivial, State.failed_of busy⟩
      · split at taken
        · cases taken
          exact ⟨inv.holds, trivial, State.failed_of busy⟩
        · cases taken
      · cases taken
        exact ⟨inv.holds, trivial, State.failed_of busy⟩
      · cases taken

theorem run_inv {program : List Span}
    (run : Run (step cfg) NotRefused (start program) s) : s.Inv :=
  run.invariant (start_inv program) fun _ _ _ inv allowed taken => step_inv inv allowed taken

/-! ## The scan -/

/-- No address a program's range holds is skipped. -/
theorem skipInternal_le {table : List Span} {address a : Nat} (below : address ≤ a)
    (outside : ∀ r ∈ table, a < r.low ∨ r.high ≤ a) : skipInternal table address ≤ a := by
  unfold skipInternal
  induction table generalizing address with
  | nil => exact below
  | cons r rest ih =>
      rw [List.foldl_cons]
      refine ih ?_ fun q mem => outside q (List.mem_cons_of_mem r mem)
      have here := outside r List.mem_cons_self
      split
      · omega
      · exact below

/-- A range of the program lies outside every range of the table. -/
theorem State.Inv.apart (inv : s.Inv) {p : Span} (mem : p ∈ s.program) :
    ∀ r ∈ s.table, r.high ≤ p.low ∨ p.high ≤ r.low :=
  fun r listed => inv.holds.away r (inv.holds.known r listed) p mem

/-- What is registered is mapped by the runtime, an operation that fails and
unmaps leaves the table as it was, and the scan leaves nothing of the program
out. -/
def Truthful (s : State) : Prop :=
  (∀ r ∈ s.table, r ∈ s.owned) ∧
    (s.unmapped = true → ∀ r, r ∈ s.table ↔ r ∈ s.begun) ∧
    ∀ p ∈ s.program,
      (∀ w, p.Holds w → ∀ low high, low ≤ w → w + 8 ≤ high →
        Passed (scanExcluding s.table low high) w) ∧
      ∀ a, p.low ≤ a → a < p.high → ∀ address ≤ a, skipInternal s.table address ≤ a

theorem registered_owned {program : List Span}
    (run : Run (step cfg) NotRefused (start program) s) : Truthful s := by
  have inv := run_inv run
  refine ⟨inv.holds.known, fun failed => (inv.failed failed).2, fun p mem => ⟨?_, ?_⟩⟩
  · intro w within low high lower upper
    refine (passed_scanExcluding ?_).mpr ⟨lower, upper⟩
    intro r listed
    have apart := inv.apart mem r listed
    unfold Span.Holds at within
    unfold Span.Misses
    omega
  · intro a low high address below
    refine skipInternal_le below ?_
    intro r listed
    have apart := inv.apart mem r listed
    omega

/-! A machine of 47-bit addresses. -/

def wideConfig : Config where
  bits := 47
  pageBytes := 4096
  workersWanted := 1
  capacity _ := 64

/-- The arena is reserved, and the text of the mappings read. -/
def reservedEvents : List Event :=
  [.initialize', .mmap (some 0x100000000000), .call, .call, .mmap (some 0x7E0000000000), .call,
    .mprotect true, .readMaps, .call, .mmap (some 0x7F0000000000), .call, .call, .read (some 0)]

theorem registered_owned_reserved : ∃ s, s.table.length = 3 ∧ Truthful s := by
  have reached : ∃ s, Run (step wideConfig) NotRefused (start []) s ∧ s.table.length = 3 := by
    apply Run.exists_exec reservedEvents
    decide +kernel
  obtain ⟨s, run, listed⟩ := reached
  exact ⟨s, listed, registered_owned run⟩

/-- `mprotect` refuses the metadata of the first reservation, the second finds
no room, and the program maps a page where the first one was. -/
def refusedEvents : List Event :=
  [.initialize', .mmap (some 0x100000000000), .call, .call, .mmap (some 0x7E0000000000), .call,
    .mprotect false, .call, .call, .mmap none, .call, .programMap ⟨0x7E0000001000, 0x7E0000002000⟩]

theorem refused_reservation_listed :
    ∃ s, Run (step wideConfig) (fun _ _ => True) (start []) s ∧ ¬ Truthful s := by
  have reached : ∃ s, Run (step wideConfig) (fun _ _ => True) (start []) s ∧
      (s.table, s.owned) =
        ([⟨0x100000000000, 0x180000000040⟩, ⟨0x7E0000000000, 0x7E6500000000⟩],
          [⟨0x100000000000, 0x180000000040⟩]) := by
    apply Run.exists_exec refusedEvents
    decide +kernel
  obtain ⟨s, run, seen⟩ := reached
  obtain ⟨table, owned⟩ := Prod.mk.inj seen
  refine ⟨s, run, fun truthful => ?_⟩
  have known := truthful.1 ⟨0x7E0000000000, 0x7E6500000000⟩ (by simp [table])
  simp [owned] at known

end WeaveC.Sweep.Internal
