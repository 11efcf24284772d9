import WeaveC.Alloc.Lookup
import WeaveC.Alloc.Reuse

/-!
# Double releases

A slot that is not live stays so until an allocation makes it live.  Until then
every release and every reallocation of an address in it reports, those that had
already loaded the slot's word while it was live too.
-/

namespace WeaveC.Alloc

open WeaveC.Library

variable {T : Type} {A : Arena} {h h' : Heap} {th th' : Thread} {s s' : State T} {e : Event T}
  {place : Slot → Place T} {x : Slot} {p : Nat}

/-- The step makes slot `x` live. -/
def State.Makes (s : State T) (e : Event T) (x : Slot) : Prop :=
  ∃ w y, (s.thread e.thread).point = .storeLive w y ∧ y.place = x

/-- Only an allocation's store makes a slot live. -/
theorem Partition.stays_gone (ok : Partition A s place) (taken : s.stepOf A e = some (h', th'))
    (gone : (s.heap.table.word x).state ≠ .live) (other : ¬ s.Makes e x) :
    (h'.table.word x).state ≠ .live := by
  intro live
  cases stepOf_effect taken with
  | calm _ _ older _ =>
      have same : h'.table.word x = s.heap.table.word x := (older x.region).live x.index live
      exact gone (same ▸ live)
  | swept _ _ older =>
      have same : h'.table.word x = s.heap.table.word x := (older x.region).live x.index live
      exact gone (same ▸ live)
  | returned _ _ eq =>
      rw [eq] at live
      have same := (Table.Older.giveBack _ _ _ x.region).live x.index live
      exact gone ((congrArg Word.state same).symm.trans live)
  | popped _ eq =>
      rw [eq] at live
      exact gone ((congrArg Word.state (Table.word_popped _ _ _ _ _ x)).symm.trans live)
  | @stored y size point eq =>
      rw [eq] at live
      by_cases same : x = y
      · subst same
        rcases point with ⟨w, slot, point, rfl, -⟩ | point
        · exact other ⟨w, slot, point, rfl⟩
        · -- a slot that is reallocated in place is live already
          have placed := (ok.resizing_spec (congrArg Point.resizing point)).1
          exact gone ((ok.table.live_iff x).mp placed)
      · rw [Table.word_setWord_of_ne same] at live
        exact gone live
  | made _ eq | resized _ eq | released _ eq | inserted _ _ _ _ _ eq =>
      rw [eq] at live
      exact gone live
  | freed _ found =>
      obtain ⟨-, -, -, -, -, -, -, -, -, table⟩ := hugeFree_eq found
      exact gone (table ▸ live)

/-- A release whose slot is gone cannot take it. -/
theorem claim_refused {w : Word} (here : PointOk A h.table th.cache th.point)
    (gone : (h.table.word x).state ≠ .live) (point : th.point = .claim x w) (a : Answer) :
    th.step A h a = none := by
  rw [point] at here
  have other : h.table.word x ≠ w := fun same => gone (same ▸ here)
  unfold Thread.step
  simp only [point]
  exact if_neg other

/-- What a release and a reallocation of an address in a slot that is not live
do. -/
structure Heap.Reports (A : Arena) (h : Heap) (p : Nat) (why : String) : Prop where
  refusal : h.refusal A p = some why
  release : ∀ th : Thread, Thread.release A h th p = none
  resize : ∀ (th : Thread) size mapped, Thread.resize A h th p size mapped = none

theorem reports_of_gone (inside : A.inArena p = true)
    (gone : (h.table.word (h.table.slotOf A p)).state ≠ .live) :
    h.Reports A p
      (if (h.table.word (h.table.slotOf A p)).state = .dead then "the block was already released"
        else "no block is allocated there") := by
  have refused : h.table.slotBase A (h.table.slotOf A p) ≠ p ∨
      (h.table.word (h.table.slotOf A p)).state ≠ .live := .inr gone
  refine ⟨?_, fun th => ?_, fun th size mapped => ?_⟩
  · unfold Heap.refusal Heap.whyNotReleasable
    rw [if_pos inside]
    dsimp only
    rw [if_pos refused]
    cases state : (h.table.word (h.table.slotOf A p)).state with
    | live => exact absurd state gone
    | never | free | dead => simp
  · unfold Thread.release
    rw [if_pos inside]
    exact if_pos refused
  · unfold Thread.resize
    rw [if_pos inside]
    exact if_pos refused

section Runs

variable [DecidableEq T]

/-- From a state in which slot `x` is not live, as long as no allocation makes it
live: no release takes it, not even one that had found it live, and every release
and reallocation of an address in it reports, as a block already released until a
sweep recycles it. -/
theorem released_once {byte : Nat → UInt8}
    (run : Run (State.step A) State.NoRace (.initial A byte) s) (gone : ¬ s.At x .live)
    (onward : Run (State.step A) (fun s e => s.NoRace e ∧ ¬ s.Makes e x) s s') :
    ¬ s'.At x .live ∧
      (∀ t w a, (s'.thread t).point = .claim x w → (s'.thread t).step A s'.heap a = none) ∧
        ∀ p, A.inArena p = true → s'.heap.table.slotOf A p = x →
          (s'.Released x → s'.heap.Reports A p "the block was already released") ∧
            (¬ s'.Released x → s'.heap.Reports A p "no block is allocated there") := by
  obtain ⟨⟨place, ok⟩, gone'⟩ : (∃ place, Partition A s' place) ∧
      (s'.heap.table.word x).state ≠ .live := by
    refine onward.invariant
      (I := fun s => (∃ place, Partition A s place) ∧ (s.heap.table.word x).state ≠ .live)
      ⟨partition_run run, gone⟩ ?_
    rintro u e v ⟨⟨place, ok⟩, gone⟩ ⟨quiet, other⟩ taken
    refine ⟨ok.step quiet taken, ?_⟩
    obtain ⟨h, th, found, rfl⟩ := State.step_eq_some taken
    exact ok.stays_gone found gone other
  refine ⟨gone', fun t w a point => claim_refused (ok.point t) gone' point a,
    fun p inside found => ?_⟩
  subst found
  have reports := reports_of_gone inside gone'
  constructor
  · intro released
    rwa [if_pos (ok.released_iff.mp released)] at reports
  · intro kept
    rwa [if_neg (mt ok.released_iff.mpr kept)] at reports

/-- Two threads release one block of 40000 bytes: both have loaded its word, and
the first has taken it. -/
def releasedTwice : List (Event Bool) :=
  .enter true (.alloc 40000 0) :: List.replicate 5 (.next true) ++
    [.enter true (.free 0x1480000000), .enter false (.free 0x1480000000), .next true, .next false,
      .next true]

theorem released_once_twice : ∃ s : State Bool,
    Run (State.step .sample) State.NoRace (.initial .sample fun _ => 0) s ∧
      (s.thread false).point = .claim ⟨40, 0⟩ ⟨40000, .live⟩ ∧
        (∀ a, (s.thread false).step .sample s.heap a = none) ∧
          s.heap.Reports .sample 0x1480000000 "the block was already released" := by
  obtain ⟨s, run, seen⟩ : ∃ s : State Bool,
      Run (State.step .sample) State.NoRace (.initial .sample fun _ => 0) s ∧
        ((s.thread false).point, (s.heap.table.word ⟨40, 0⟩).state,
          s.heap.table.slotOf .sample 0x1480000000) =
        (.claim ⟨40, 0⟩ ⟨40000, .live⟩, .dead, ⟨40, 0⟩) :=
    Run.exists_exec releasedTwice (by decide +kernel)
  simp only [Prod.mk.injEq] at seen
  obtain ⟨point, dead, slot⟩ := seen
  obtain ⟨place, ok⟩ := partition_run run
  have gone : ¬ s.At ⟨40, 0⟩ .live := fun live => by
    change (s.heap.table.word ⟨40, 0⟩).state = .live at live
    rw [dead] at live
    cases live
  obtain ⟨-, refused, reports⟩ := released_once run gone .refl
  exact ⟨s, run, point, fun a => refused false _ a point,
    (reports _ (by decide) slot).1 (ok.released_iff.mpr dead)⟩

end Runs

end WeaveC.Alloc
