import WeaveC.Alloc.Boundary

/-!
# Refused commits

What memory that is not handed out is poisoned whatever commits the system
refuses, in every state of a run, and what a `popSlot` that a commit was refused
leaves for a later one.
-/

namespace WeaveC.Alloc

open WeaveC.Runtime WeaveC.Library

variable {T : Type} {A : Arena} {s : State T} {ctx : Context}

/-- The poison that commits make: every slot of a class of at most 64 KiB that
lies wholly in committed memory and was not handed out, and the granule before
a region with committed memory unless it is an object's. -/
structure CommitPoison (ctx : Context) (A : Arena) (s : State T) : Prop where
  slots : ∀ r i, r < s.heap.table.regions →
    (s.heap.table.region r).entry.size ≤ Shadow.tailLimit →
      ((s.heap.table.region r).words i).state = .never →
        (i + 1) * (s.heap.table.region r).entry.size ≤ (s.heap.table.region r).committed →
          ∀ x, A.regionStart r + i * (s.heap.table.region r).entry.size ≤ x →
            x < A.regionStart r + (i + 1) * (s.heap.table.region r).entry.size →
              ¬ Addressable ctx s.heap.shadow x
  granules : ∀ r, r < s.heap.table.regions → 0 < (s.heap.table.region r).committed →
    (∀ x, A.regionStart r ≤ x + 16 → x < A.regionStart r →
      ¬ Addressable ctx s.heap.shadow x) ∨ s.Owned A r

/-- The slots a thread allocates, releases and reallocates are its own; no slot
word's commit is refused after one of slot data; no reallocation in place
leaves more than 64 KiB at the end of a region. -/
def State.Careful (A : Arena) (s : State T) (e : Event T) : Prop :=
  s.Alone e ∧ s.Whole A e ∧ s.Short A e

instance [Fintype T] [DecidableEq T] (A : Arena) (s : State T) (e : Event T) :
    Decidable (s.Careful A e) :=
  inferInstanceAs (Decidable (_ ∧ _ ∧ _))

theorem fenced_initial (A : Arena) (byte : Nat → UInt8) :
    Fenced A (State.initial A byte : State T) := by
  intro r some
  exact absurd (committed_initial A byte r) (Nat.ne_of_gt some)

/-- The poison before a region reads as poison at each byte. -/
theorem Fenced.unaddressable (fenced : Fenced A s) (ok : Sound A s) {r : Nat}
    (below : r < s.heap.table.regions) (some : 0 < (s.heap.table.region r).committed) :
    (∀ x, A.regionStart r ≤ x + 16 → x < A.regionStart r →
      ¬ Addressable ctx s.heap.shadow x) ∨ s.Owned A r := by
  obtain ⟨place, partition⟩ := ok.places
  obtain ⟨-, granule, -, room, window⟩ :=
    A.region_inside (below.trans_le partition.table.count)
  refine (fenced r some).imp_left fun poison x first last => ?_
  have here : x / 16 = A.before r := by
    unfold Arena.before
    omega
  exact not_addressable_of_heap ok.window (by omega) (here ▸ poison)

section Runs

variable [DecidableEq T] {byte : Nat → UInt8}

theorem fenced_run (pages : 16 ∣ A.page)
    (run : Run (State.step A) (State.Careful A) (.initial A byte) s) :
    Sound A s ∧ Unused A s.heap ∧ OneEach s ∧ Fenced A s := by
  refine run.invariant (I := fun s => Sound A s ∧ Unused A s.heap ∧ OneEach s ∧ Fenced A s)
    ⟨sound_initial A byte, unused_initial A byte, oneEach_initial A byte, fenced_initial A byte⟩ ?_
  rintro s e s' ⟨ok, unused, each, fenced⟩ ⟨alone, whole, short⟩ taken
  refine ⟨ok.step pages alone.noRace taken, ?_, each.step pages ok alone taken,
    fenced.step pages ok unused each alone whole short taken⟩
  obtain ⟨h, th, found, rfl⟩ := State.step_eq_some taken
  exact unused.step pages ok whole found

/-- In every state reached, what is committed and not handed out is poison, and
so is the granule before it; a `popSlot` that fails leaves the region and the
shadow as they were unless it was torn. -/
theorem commit_failure_poisons (pages : 16 ∣ A.page)
    (run : Run (State.step A) (State.Careful A) (.initial A byte) s) :
    (∀ ctx, CommitPoison ctx A s) ∧
      ∀ r < s.heap.table.regions, ∀ grant,
        (popSlot A grant r (s.heap.table.region r) s.heap.shadow).1 = none →
          ((popSlot A grant r (s.heap.table.region r) s.heap.shadow).2 =
            (s.heap.table.region r, s.heap.shadow) ↔
              ¬ TornSlot A grant r (s.heap.table.region r)) := by
  obtain ⟨ok, unused, -, fenced⟩ := fenced_run pages run
  refine ⟨fun ctx => ⟨?_, ?_⟩, fun r _ grant failed => popSlot_failed_iff failed⟩
  · intro r i below small never committed
    exact unused.unaddressable ok ctx below small never committed
  · intro r below committed
    exact fenced.unaddressable ok below committed

/-- A step in which the system refuses every commit from `first` up to `last`. -/
def Event.refusing (first last : Nat) : Event Unit :=
  ⟨(), none, { Answer.sample with grant := fun start => decide (start < first ∨ last ≤ start) }⟩

/-- What the examples look at: how much of region 6 is accessible, the word of a
slot not handed out, and the shadow of its first granule. -/
def State.uncommittedSlot (s : State Unit) : Nat × Nat × Nat × WordState × UInt8 :=
  let R := s.heap.table.region 6
  (s.heap.table.regions, R.committed, R.entry.size, (R.words 32).state,
    s.heap.shadow.byte ((Arena.sample.regionStart 6 + 32 * 112) / 16))

theorem commit_failure_retry : ∃ s : State Unit,
    Run (State.step .sample) (State.Careful .sample) (.initial .sample fun _ => 0) s ∧
      s.uncommittedSlot = (96, 0x100000, 112, .never, ShadowValue.heapTail) ∧
        ∀ ctx, CommitPoison ctx .sample s := by
  obtain ⟨s, run, seen⟩ : ∃ s : State Unit,
      Run (State.step .sample) (State.Careful .sample) (.initial .sample fun _ => 0) s ∧
        s.uncommittedSlot = (96, 0x100000, 112, .never, ShadowValue.heapTail) :=
    Run.exists_exec [.enter () (.alloc 100 0), .next (), .refusing 0 0x10000000000, .next ()]
      (by decide +kernel)
  exact ⟨s, run, seen, (commit_failure_poisons (by decide) run).1⟩

/-- The words of region 6 are refused and then granted: the region's slots that
are still to be handed out stay addressable. -/
theorem commit_failure_torn : ∃ s : State Unit,
    Run (State.step .sample) (fun s e => s.Alone e ∧ s.Short .sample e)
      (.initial .sample fun _ => 0) s ∧ ∀ ctx, ¬ CommitPoison ctx .sample s := by
  obtain ⟨s, run, seen⟩ : ∃ s : State Unit,
      Run (State.step .sample) (fun s e => s.Alone e ∧ s.Short .sample e)
        (.initial .sample fun _ => 0) s ∧
        s.uncommittedSlot = (96, 0x100000, 112, .never, ShadowValue.addressable) :=
    Run.exists_exec [.enter () (.alloc 100 0), .next (),
      .refusing (Arena.sample.wordStart 0) 0x10000000000, .next ()] (by decide +kernel)
  have quiet : Run (State.step .sample) State.NoRace (.initial .sample fun _ => 0) s :=
    run.mono fun _ _ allowed => allowed.1.noRace
  have ok := sound_run (by decide) quiet
  unfold State.uncommittedSlot at seen
  simp only [Prod.mk.injEq] at seen
  obtain ⟨regions, committed, size, never, clear⟩ := seen
  refine ⟨s, run, fun ctx poison => ?_⟩
  refine poison.slots 6 32 (by rw [regions]; decide) (by rw [size]; decide) never
    (by rw [size, committed]; decide) (Arena.sample.regionStart 6 + 32 * 112)
    (by rw [size]) (by rw [size]; decide) ?_
  exact addressable_of_zero ok.window (by decide) clear

end Runs

end WeaveC.Alloc
