import WeaveC.Locks.Deferred
import Mathlib.Data.Nat.Count

/-!
# The ledger of releases

Each call brings one block to release.  What the calls still have, what waits
among the deferred releases and what has been released hold each block at most
once: an action moves a block from one to another, or drops it.
-/

namespace WeaveC.Locks

open WeaveC.Library

/-- What `__weavec_rt_size` does. -/
def SizeAct : Action → Prop
  | .query .cached _ | .locksUp | .locksDown | .lock .hugeLock | .unlock .hugeLock => True
  | _ => False

theorem every_weavecRtSize : weavecRtSize.Every SizeAct := by
  have found : hugeFind.Every SizeAct :=
    ⟨⟨⟨⟨⟨trivial, trivial, trivial⟩, ⟨trivial, trivial, trivial⟩⟩, trivial, trivial⟩,
      ⟨⟨trivial, ⟨trivial, trivial, trivial⟩, trivial⟩, ⟨trivial, trivial, trivial⟩⟩, trivial⟩,
      trivial⟩
  exact ⟨⟨found, trivial⟩, ⟨found, trivial⟩, trivial⟩

/-- Once, where the block is this one. -/
def tally (v k : Nat) : Nat := if v = k then 1 else 0

namespace Frame

/-- How often the call may still release the block. -/
def owes (f : Frame) (k : Nat) : Nat :=
  (bif f.token.argument then tally f.argument k else 0) +
    bif f.token.deferred then tally f.pointer k else 0

/-- It has stored the count and not yet loaded the block. -/
def transit (f : Frame) : Nat := if f.token.window = .stored then 1 else 0

/-- What it has seen of the deferred releases is so. -/
def Fits (count : Nat) (f : Frame) : Prop :=
  match f.token.window with
  | .shut => True
  | .room => count < Nest.DeferredSlots
  | .pending => count ≠ 0
  | .loaded => f.count = count ∧ count ≠ 0
  | .stored => f.count = count + 1

theorem fits_of_shut {f : Frame} {count : Nat} (shut : f.token.window = .shut) : f.Fits count := by
  unfold Fits
  rw [shut]
  trivial

/-- With a block released or put away, the call has it no more. -/
theorem owes_spend {f f' : Frame} {p : Pointer} (has : f.token.Has p)
    (spent : f'.token.argument = (f.token.spend p).argument ∧
      f'.token.deferred = (f.token.spend p).deferred)
    (same : f'.argument = f.argument ∧ f'.pointer = f.pointer) (k : Nat) :
    f'.owes k + tally (f.value p) k = f.owes k := by
  unfold owes
  rw [spent.1, spent.2, same.1, same.2]
  cases p with
  | argument =>
    have had : f.token.argument = true := has
    simp only [Token.spend, value, had, cond_false, cond_true]
    omega
  | deferred =>
    have had : f.token.deferred = true := has
    simp only [Token.spend, value, had, cond_false, cond_true]
    omega

theorem transit_of_shut {f : Frame} (shut : f.token.window = .shut) : f.transit = 0 := by
  unfold transit
  rw [shut]
  rfl

end Frame

namespace Nest

def owed (frames : List Frame) (k : Nat) : Nat := (frames.map fun f => f.owes k).sum

def transit (frames : List Frame) : Nat := (frames.map Frame.transit).sum

/-- How often the block waits among the deferred releases. -/
def waiting (n : Nest) (k : Nat) : Nat :=
  Nat.count (fun i => n.deferred i = k) (n.deferredCount + transit n.frames)

structure Ledger (n : Nest) : Prop where
  once : ∀ k, owed n.frames k + n.waiting k + n.released.count k ≤ if k < n.calls then 1 else 0
  room : n.deferredCount + transit n.frames ≤ DeferredSlots
  fits : ∀ f ∈ n.frames, f.Fits n.deferredCount

theorem owed_cons (f : Frame) (rest : List Frame) (k : Nat) :
    owed (f :: rest) k = f.owes k + owed rest k := by
  simp only [owed, List.map_cons, List.sum_cons]

theorem transit_cons (f : Frame) (rest : List Frame) :
    transit (f :: rest) = f.transit + transit rest := by
  simp only [transit, List.map_cons, List.sum_cons]

theorem transit_of_calm {rest : List Frame} (calm : ∀ g ∈ rest, g.token.window = .shut) :
    transit rest = 0 := by
  induction rest with
  | nil => rfl
  | cons g rest inductionHypothesis =>
    rw [transit_cons, Frame.transit_of_shut (calm g List.mem_cons_self),
      inductionHypothesis fun g mem => calm g (List.mem_cons_of_mem _ mem)]

theorem Ledger.released_nodup {n : Nest} (ledger : n.Ledger) : n.released.Nodup := by
  refine List.nodup_iff_count_le_one.mpr ?_
  intro k
  have once := ledger.once k
  split at once <;> omega

variable {n n' : Nest} {f : Frame} {rest : List Frame} {a : Action}

theorem perform_loadDeferred (done : n.perform f rest .loadDeferred = some n') :
    oneLess f.count < DeferredSlots ∧
      n' = { n with frames := { f.advance (below rest) .loadDeferred with
        pointer := n.deferred (oneLess f.count) } :: rest } := by
  unfold perform at done
  dsimp only at done
  split at done
  · next below =>
    exact ⟨below, (Option.some.inj done).symm⟩
  · cases done


theorem Ledger.top (ledger : n.Ledger) (frames : n.frames = f :: rest) : f.Fits n.deferredCount := by
  refine ledger.fits f ?_
  rw [frames]
  exact List.mem_cons_self

/-- The running call moves blocks; the calls below are not at the deferred
releases. -/
theorem Ledger.moved {f' : Frame} (ledger : n.Ledger) (frames : n.frames = f :: rest)
    (frames' : n'.frames = f' :: rest) (calls : n'.calls = n.calls)
    (calm : ∀ g ∈ rest, g.token.window = .shut)
    (moved : ∀ k, f'.owes k + Nat.count (fun i => n'.deferred i = k) (n'.deferredCount + f'.transit)
        + n'.released.count k ≤
      f.owes k + Nat.count (fun i => n.deferred i = k) (n.deferredCount + f.transit)
        + n.released.count k)
    (room : n'.deferredCount + f'.transit ≤ DeferredSlots) (fits : f'.Fits n'.deferredCount) :
    n'.Ledger := by
  have none : transit rest = 0 := transit_of_calm calm
  constructor
  · intro k
    have once := ledger.once k
    have less := moved k
    rw [frames, owed_cons, waiting, frames, transit_cons, none] at once
    rw [frames', owed_cons, waiting, frames', transit_cons, none, calls]
    simp only [Nat.add_zero] at once ⊢
    omega
  · rw [frames', transit_cons, none]
    exact room
  · rw [frames']
    intro g mem
    rcases List.mem_cons.mp mem with rfl | mem
    · exact fits
    · exact Frame.fits_of_shut (calm g mem)

/-- The running call has what it had, and so have the deferred releases. -/
theorem Ledger.still {f' : Frame} (ledger : n.Ledger) (frames : n.frames = f :: rest)
    (frames' : n'.frames = f' :: rest) (calls : n'.calls = n.calls)
    (deferred : n'.deferred = n.deferred) (count : n'.deferredCount = n.deferredCount)
    (released : n'.released = n.released) (owes : f'.owes = f.owes)
    (transit : f'.transit = f.transit) (fits : f'.Fits n.deferredCount) : n'.Ledger := by
  constructor
  · intro k
    have once := ledger.once k
    rw [frames, owed_cons, waiting, frames, transit_cons] at once
    rwa [frames', owed_cons, waiting, frames', transit_cons, calls, deferred, count, released, owes,
      transit]
  · have room := ledger.room
    rw [frames, transit_cons] at room
    rwa [frames', transit_cons, count, transit]
  · rw [frames', count]
    intro g mem
    rcases List.mem_cons.mp mem with rfl | mem
    · exact fits
    · refine ledger.fits g ?_
      rw [frames]
      exact List.mem_cons_of_mem f mem

theorem count_cons (v k : Nat) (l : List Nat) : (v :: l).count k = l.count k + tally v k := by
  rw [List.count_cons]
  unfold tally
  simp only [beq_iff_eq]

theorem count_succ (deferred : Nat → Nat) (k m : Nat) :
    Nat.count (fun i => deferred i = k) (m + 1) =
      Nat.count (fun i => deferred i = k) m + tally (deferred m) k := Nat.count_succ _ m

theorem oneLess_succ {count : Nat} (small : count < DeferredSlots) : oneLess (count + 1) = count := by
  unfold oneLess DeferredSlots at *
  omega

theorem count_update_of_le {deferred : Nat → Nat} {i m v k : Nat} (above : m ≤ i) :
    Nat.count (fun j => Function.update deferred i v j = k) m =
      Nat.count (fun j => deferred j = k) m := by
  have same (j : Nat) (less : j < m) : Function.update deferred i v j = deferred j :=
    Function.update_of_ne (Nat.ne_of_lt (Nat.lt_of_lt_of_le less above)) _ _
  apply le_antisymm
  · refine Nat.count_mono_left ?_
    intro j less eq
    rwa [same j less] at eq
  · refine Nat.count_mono_left ?_
    intro j less eq
    rwa [same j less]

/-- A block that the call has becomes a released one. -/
theorem Ledger.release {p : Pointer} (ledger : n.Ledger) (frames : n.frames = f :: rest)
    (calm : ∀ g ∈ rest, g.token.window = .shut) (has : f.token.Has p)
    (shut : f.token.window = .shut) (done : n.perform f rest (.release p) = some n') :
    n'.Ledger := by
  obtain rfl := Option.some.inj done
  have shut' : (f.token.after (.release p)).window = .shut := by
    cases p with
    | argument | deferred => exact shut
  have room := ledger.room
  rw [frames, transit_cons, Frame.transit_of_shut shut] at room
  have still : (f.advance (below rest) (.release p)).transit = 0 := Frame.transit_of_shut shut'
  refine ledger.moved frames rfl rfl calm ?_ ?_ (Frame.fits_of_shut shut')
  · intro k
    have spent : (f.advance (below rest) (.release p)).owes k +
        tally (f.value p) k = f.owes k := by
      cases p with
      | argument | deferred => apply Frame.owes_spend has ⟨?_, ?_⟩ ⟨?_, ?_⟩ k <;> rfl
    rw [still, Frame.transit_of_shut shut, count_cons]
    dsimp only
    omega
  · rw [still]
    exact Nat.le_trans (Nat.le_add_right _ _) room

/-- A block that the call has waits behind the others. -/
theorem Ledger.defer {p : Pointer} (ledger : n.Ledger) (frames : n.frames = f :: rest)
    (calm : ∀ g ∈ rest, g.token.window = .shut) (has : f.token.Has p)
    (ready : f.token.window = .room) (done : n.perform f rest (.defer p) = some n') :
    n'.Ledger := by
  obtain rfl := Option.some.inj done
  have fits := ledger.top frames
  unfold Frame.Fits at fits
  rw [ready] at fits
  have none : f.transit = 0 := by
    unfold Frame.transit
    rw [ready]
    rfl
  have shut' : (f.token.after (.defer p)).window = .shut := by
    cases p with
    | argument | deferred => rfl
  have still : (f.advance (below rest) (.defer p)).transit = 0 := Frame.transit_of_shut shut'
  refine ledger.moved frames rfl rfl calm ?_ ?_ (Frame.fits_of_shut shut')
  · intro k
    have spent : (f.advance (below rest) (.defer p)).owes k +
        tally (f.value p) k = f.owes k := by
      cases p with
      | argument | deferred => apply Frame.owes_spend has ⟨?_, ?_⟩ ⟨?_, ?_⟩ k <;> rfl
    rw [none, still]
    simp only [Nat.add_zero, count_succ, count_update_of_le (Nat.le_refl _), Function.update_self]
    omega
  · rw [still]
    exact fits

/-- The last waiting block is the call's own from here on. -/
theorem Ledger.storeCount (ledger : n.Ledger) (frames : n.frames = f :: rest)
    (calm : ∀ g ∈ rest, g.token.window = .shut) (loaded : f.token.window = .loaded)
    (done : n.perform f rest .storeCount = some n') : n'.Ledger := by
  obtain rfl := Option.some.inj done
  have fits := ledger.top frames
  unfold Frame.Fits at fits
  rw [loaded] at fits
  obtain ⟨same, some⟩ := fits
  have none : f.transit = 0 := by
    unfold Frame.transit
    rw [loaded]
    rfl
  have room := ledger.room
  rw [frames, transit_cons, none, transit_of_calm calm] at room
  obtain ⟨count, eq⟩ := Nat.exists_eq_succ_of_ne_zero some
  have less : oneLess f.count = count := by
    rw [same, eq]
    apply oneLess_succ
    omega
  refine ledger.moved frames rfl rfl calm ?_ ?_ ?_
  · intro k
    change f.owes k + Nat.count _ (oneLess f.count + 1) + _ ≤ _
    rw [less, none, eq]
  · change oneLess f.count + 1 ≤ DeferredSlots
    rw [less]
    omega
  · change f.count = oneLess f.count + 1
    rw [less, same, eq]

theorem Ledger.loadDeferred (ledger : n.Ledger) (frames : n.frames = f :: rest)
    (calm : ∀ g ∈ rest, g.token.window = .shut) (stored : f.token.window = .stored)
    (done : n.perform f rest .loadDeferred = some n') : n'.Ledger := by
  obtain ⟨-, rfl⟩ := perform_loadDeferred done
  have fits := ledger.top frames
  unfold Frame.Fits at fits
  rw [stored] at fits
  have one : f.transit = 1 := by
    unfold Frame.transit
    rw [stored]
    rfl
  have room := ledger.room
  rw [frames, transit_cons, one, transit_of_calm calm] at room
  have less : oneLess f.count = n.deferredCount := by
    rw [fits]
    apply oneLess_succ
    omega
  refine ledger.moved frames rfl rfl calm ?_ ?_ (Frame.fits_of_shut rfl)
  · intro k
    rw [one, Frame.transit_of_shut rfl, less]
    simp only [Nat.add_zero, count_succ, Frame.owes, Frame.advance, Token.after, cond_true]
    omega
  · rw [Frame.transit_of_shut rfl]
    change n.deferredCount ≤ DeferredSlots
    omega

/-- What an allowed action does to the ledger. -/
theorem Ledger.perform (ledger : n.Ledger) (frames : n.frames = f :: rest)
    (quiet : (∀ g ∈ rest, g.token.window = .shut) ∨ SizeAct a) (allowed : f.token.Allowed a)
    (done : n.perform f rest a = some n') : n'.Ledger := by
  have fits := ledger.top frames
  cases a with
  | release p =>
    obtain ⟨has, shut⟩ := allowed
    exact ledger.release frames (quiet.resolve_right id) has shut done
  | defer p =>
    obtain ⟨has, room⟩ := allowed
    exact ledger.defer frames (quiet.resolve_right id) has room done
  | storeCount => exact ledger.storeCount frames (quiet.resolve_right id) allowed done
  | loadDeferred => exact ledger.loadDeferred frames (quiet.resolve_right id) allowed done
  | loadCount =>
    obtain rfl := Option.some.inj done
    have pending : f.token.window = .pending := allowed
    have none : f.transit = 0 := by
      unfold Frame.transit
      rw [pending]
      rfl
    unfold Frame.Fits at fits
    rw [pending] at fits
    exact ledger.still frames rfl rfl rfl rfl rfl rfl (none ▸ rfl) ⟨rfl, fits⟩
  | setCache =>
    obtain rfl := Option.some.inj done
    have shut : f.token.window = .shut := allowed
    have calm := quiet.resolve_right id
    refine ledger.moved frames rfl rfl calm ?_ ?_
      (Frame.fits_of_shut shut)
    · intro k
      have none : (f.advance (below rest) .setCache).transit = 0 := Frame.transit_of_shut shut
      rw [none]
      change f.owes k + 0 + n.released.count k ≤ _
      omega
    · have none : (f.advance (below rest) .setCache).transit = 0 := Frame.transit_of_shut shut
      rw [none]
      exact Nat.zero_le _
  | query q b =>
    obtain ⟨answer, eq⟩ := Option.ite_none_right_eq_some.mp done
    obtain rfl := Option.some.inj eq
    cases q with
    | pending =>
      have shut : f.token.window = .shut := allowed
      cases b with
      | true =>
        have some : n.deferredCount ≠ 0 := of_decide_eq_true answer
        refine ledger.still frames rfl rfl rfl rfl rfl rfl ?_ some
        rw [Frame.transit_of_shut shut]
        rfl
      | false => exact ledger.still frames rfl rfl rfl rfl rfl rfl rfl fits
    | room =>
      have shut : f.token.window = .shut := allowed
      cases b with
      | true =>
        have room : n.deferredCount < DeferredSlots := of_decide_eq_true answer
        refine ledger.still frames rfl rfl rfl rfl rfl rfl ?_ room
        rw [Frame.transit_of_shut shut]
        rfl
      | false => exact ledger.still frames rfl rfl rfl rfl rfl rfl rfl fits
    | reserved | cached | unmade | busy | nested | inside =>
      exact ledger.still frames rfl rfl rfl rfl rfl rfl rfl fits
  | lock l | tryLock l =>
    obtain ⟨-, eq⟩ := Option.ite_none_left_eq_some.mp done
    obtain rfl := Option.some.inj eq
    exact ledger.still frames rfl rfl rfl rfl rfl rfl rfl fits
  | unlock | storeBytes | locksUp | locksDown | depthUp | depthDown | setGone | openArrays
  | closeArrays | blockSignals | restoreSignals | stopThreads | resumeThreads | createWorker
  | awaitWorker | storeThreadId | startRound | awaitGo | seeRound | finishRound | awaitDone
  | enterChild | initWorkLock =>
    obtain rfl := Option.some.inj done
    exact ledger.still frames rfl rfl rfl rfl rfl rfl rfl fits

/-- A call brings one block that no other has. -/
theorem Ledger.enter (ledger : n.Ledger) (e : Entry) (covered : Bool) :
    (n.enter e covered).Ledger := by
  constructor
  · intro k
    have once := ledger.once k
    have fresh : (⟨e, e.program, Call.outside, ⟨true, false, .shut⟩, n.calls, 0, 0, covered⟩ :
        Frame).owes k = tally n.calls k := rfl
    have waits : (n.enter e covered).waiting k = n.waiting k := by
      unfold waiting
      change Nat.count _ (n.deferredCount + transit (_ :: n.frames)) = _
      rw [transit_cons, Frame.transit_of_shut rfl, Nat.zero_add]
      rfl
    rw [waits]
    change owed (_ :: n.frames) k + n.waiting k + n.released.count k ≤
      if k < n.calls + 1 then 1 else 0
    rw [owed_cons, fresh, tally]
    split at once <;> split <;> split <;> omega
  · have room := ledger.room
    change n.deferredCount + transit (_ :: n.frames) ≤ DeferredSlots
    rwa [transit_cons, Frame.transit_of_shut rfl, Nat.zero_add]
  · intro g mem
    rcases List.mem_cons.mp mem with rfl | mem
    · exact Frame.fits_of_shut rfl
    · exact ledger.fits g mem

/-- A call that returns takes what it still had with it. -/
theorem Ledger.leave (ledger : n.Ledger) (frames : n.frames = f :: rest) :
    Ledger { n with frames := rest } := by
  have room := ledger.room
  rw [frames, transit_cons] at room
  constructor
  · intro k
    have once := ledger.once k
    rw [frames, owed_cons, waiting, frames, transit_cons] at once
    have fewer : Nat.count (fun i => n.deferred i = k) (n.deferredCount + transit rest) ≤
        Nat.count (fun i => n.deferred i = k) (n.deferredCount + (f.transit + transit rest)) :=
      Nat.count_monotone _ (by omega)
    change owed rest k + Nat.count (fun i => n.deferred i = k) (n.deferredCount + transit rest) +
      n.released.count k ≤ if k < n.calls then 1 else 0
    omega
  · change n.deferredCount + transit rest ≤ DeferredSlots
    omega
  · intro g mem
    refine ledger.fits g ?_
    rw [frames]
    exact List.mem_cons_of_mem f mem

theorem ledger_initial (reserved : Bool) : (initial reserved).Ledger := by
  constructor
  · intro k
    exact Nat.le_refl 0
  · exact Nat.zero_le _
  · intro f mem
    cases mem

end Nest

end WeaveC.Locks
