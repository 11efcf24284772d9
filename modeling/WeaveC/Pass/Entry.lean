import WeaveC.Pass.FrameSpec
import Mathlib.Data.List.Induction

/-!
# The shadow at entry, granule by granule

A frame's shadow at entry is computed in runs between the objects' boundaries,
and stored by words, by a `memset` or by the runtime.  What it leaves in each
granule is read off the objects in scope at entry.
-/

namespace WeaveC.Pass

open WeaveC.Runtime

/-! ## What is asked of it -/

namespace Function

variable {P : Type} [DecidableEq P] (f : Function P)

/-- The last object in layout order that covers granule `g` and is in scope at
entry. -/
def inScopeAt (objects : List FrameObject) (g : Nat) : Option FrameObject :=
  (objects.filter fun o => decide (Covers o g ∧ f.starts o.alloca = [])).getLast?

/-- A granule of no object in scope: of the left zone, of objects out of scope,
or of a gap. -/
def outOfScope (objects : List FrameObject) (g : Nat) : UInt8 :=
  if g < LeftZone / 16 then ShadowValue.stackLeft
  else if ∃ o ∈ objects, Covers o g then ShadowValue.stackScope
  else ShadowValue.stackMid

/-- The right zone, the value of the object in scope, which is its color or a
partial granule's, or that of a granule of none. -/
def entryGranule (objects : List FrameObject) (g : Nat) : UInt8 :=
  if granules (objectsEnd objects) ≤ g then ShadowValue.stackRight
  else (f.inScopeAt objects g).elim (outOfScope objects g) (own · g)

end Function

/-- `s'` has the bytes from `i` on, and the bytes of `s` elsewhere. -/
structure Stored (s s' : Shadow) (i : Nat) (bytes : List UInt8) : Prop where
  window : Shadow.SameWindow s s'
  inside : ∀ k (within : k < bytes.length), s'.byte (i + k) = bytes[k]
  outside : ∀ j, j < i ∨ i + bytes.length ≤ j → s'.byte j = s.byte j

/-- A frame of `bytes` bytes on the thread's own stack. -/
structure OnStack (ctx : Context) (s : Shadow) (address bytes : Nat) : Prop where
  ready : s.Ready
  aligned : address % 16 = 0
  above : ctx.stackBottom ≤ address
  first : address < ctx.stackTop
  last : address + bytes ≤ ctx.stackTop
  window : ctx.stackTop ≤ 2 ^ s.bits

/-! ## The loop over the objects -/

namespace Function

variable {P : Type} [DecidableEq P] {f : Function P}

/-- What an object's granule reads in scope is no gap. -/
theorem own_ne_stackMid {o : FrameObject} (colored : IsColor o.color) (g : Nat) :
    own o g ≠ ShadowValue.stackMid := by
  unfold own
  split
  · intro same
    have full := colored.1
    rw [same] at full
    exact absurd full (by decide)
  · intro same
    have read := (partialOf_value colored (Nat.mod_lt o.size (by decide : 0 < 16))).2.1
    rw [same] at read
    exact read (by decide)

/-- One more object in layout order. -/
theorem coverValue_append (objects : List FrameObject) (o : FrameObject) (g : Nat) (value : UInt8) :
    f.coverValue (objects ++ [o]) g value =
      if Covers o g then
        if f.starts o.alloca = [] then own o g
        else if f.coverValue objects g value = ShadowValue.stackMid then ShadowValue.stackScope
        else f.coverValue objects g value
      else f.coverValue objects g value := by
  unfold coverValue
  rw [List.foldl_append, List.foldl_cons, List.foldl_nil]
  by_cases inScope : f.starts o.alloca = []
  · simp only [inScope, true_or, if_true]
  · simp only [inScope, false_or, if_false]

theorem inScopeAt_append (objects : List FrameObject) (o : FrameObject) (g : Nat) :
    f.inScopeAt (objects ++ [o]) g =
      if Covers o g ∧ f.starts o.alloca = [] then some o else f.inScopeAt objects g := by
  unfold inScopeAt
  rw [List.filter_append]
  split
  · rename_i covers
    rw [List.filter_singleton, decide_eq_true covers]
    exact List.getLast?_concat
  · rename_i apart
    rw [List.filter_singleton, decide_eq_false apart]
    exact congrArg List.getLast? (List.append_nil _)

theorem mem_of_inScopeAt {objects : List FrameObject} {g : Nat} {o : FrameObject}
    (last : f.inScopeAt objects g = some o) : o ∈ objects :=
  (List.mem_filter.mp (List.mem_of_getLast? last)).1

theorem outOfScope_append (objects : List FrameObject) (o : FrameObject) (g : Nat) :
    outOfScope (objects ++ [o]) g =
      if Covers o g then
        if outOfScope objects g = ShadowValue.stackMid then ShadowValue.stackScope
        else outOfScope objects g
      else outOfScope objects g := by
  have members : (∃ p ∈ objects ++ [o], Covers p g) ↔
      (∃ p ∈ objects, Covers p g) ∨ Covers o g := by
    simp only [List.mem_append, List.mem_singleton, or_and_right, exists_or, exists_eq_left]
  have left : ShadowValue.stackLeft ≠ ShadowValue.stackMid := by decide
  have scope : ShadowValue.stackScope ≠ ShadowValue.stackMid := by decide
  unfold outOfScope
  simp only [members]
  by_cases zone : g < LeftZone / 16
  · simp only [zone, if_true, left, if_false, ite_self]
  · by_cases covers : Covers o g
    · by_cases before : ∃ p ∈ objects, Covers p g
      · simp only [zone, covers, before, or_true, if_true, scope, if_false]
      · simp only [zone, covers, before, or_true, if_true, if_false]
    · simp only [covers, or_false, if_false]

/-- The loop over the objects leaves the value of the last one in scope, and
else that of a granule of none. -/
theorem coverValue_eq {objects : List FrameObject} (colored : ∀ o ∈ objects, IsColor o.color)
    (g : Nat) :
    f.coverValue objects g
        (if g < LeftZone / 16 then ShadowValue.stackLeft else ShadowValue.stackMid) =
      (f.inScopeAt objects g).elim (outOfScope objects g) (own · g) := by
  induction objects using List.reverseRecOn with
  | nil =>
      change _ = if g < LeftZone / 16 then _ else _
      have none : ¬ ∃ o ∈ ([] : List FrameObject), Covers o g :=
        fun ⟨o, mem, _⟩ => absurd mem List.not_mem_nil
      rw [if_neg none]
      rfl
  | append_singleton objects o ih =>
      have before := ih fun p mem => colored p (List.mem_append_left _ mem)
      rw [coverValue_append, inScopeAt_append, outOfScope_append, before]
      by_cases covers : Covers o g
      · rw [if_pos covers, if_pos covers]
        by_cases inScope : f.starts o.alloca = []
        · rw [if_pos inScope, if_pos ⟨covers, inScope⟩]
          rfl
        · have out : ¬ (Covers o g ∧ f.starts o.alloca = []) := fun both => inScope both.2
          rw [if_neg inScope, if_neg out]
          cases last : f.inScopeAt objects g with
          | some p =>
              have colors := colored p (List.mem_append_left _ (mem_of_inScopeAt last))
              exact if_neg (own_ne_stackMid colors g)
          | none => rfl
      · have out : ¬ (Covers o g ∧ f.starts o.alloca = []) := fun both => covers both.1
        rw [if_neg covers, if_neg covers, if_neg out]

theorem entryValue_eq {objects : List FrameObject} (colored : ∀ o ∈ objects, IsColor o.color)
    (g : Nat) : f.entryValue objects g = f.entryGranule objects g := by
  unfold entryValue entryGranule
  dsimp only
  rw [coverValue_eq colored]

end Function

/-! ## The code that writes -/

theorem stored_store (s : Shadow) (i : Nat) (bytes : List UInt8) :
    Stored s (s.store i bytes) i bytes := by
  refine ⟨⟨rfl, rfl⟩, ?_, ?_⟩
  · intro k within
    rw [Shadow.store_byte, if_pos (Nat.le_add_right _ _), Nat.add_sub_cancel_left,
      List.getElem?_eq_getElem within]
    rfl
  · intro j outside
    rw [Shadow.store_byte]
    split
    · rename_i above
      have past : bytes.length ≤ j - i := by omega
      rw [List.getElem?_eq_none past]
      rfl
    · rfl

theorem OnStack.oneStack {ctx : Context} {s : Shadow} {address bytes : Nat}
    (own : OnStack ctx s address bytes) : OneStack ctx address (address + bytes) :=
  .inl ⟨own.above, own.last⟩

/-- Whatever the objects, the runs are the granules' values; and whatever the
runs, the code stores their bytes and no other. -/
theorem Function.frame_shadow_written {P : Type} [DecidableEq P] (f : Function P)
    (objects : List FrameObject) (frameSize : Nat) (colored : ∀ o ∈ objects, IsColor o.color) :
    expand (f.entryRuns objects (frameSize / 16) (cuts objects frameSize) []) =
        (List.range (frameSize / 16)).map (f.entryGranule objects) ∧
      ∀ (runs : List ShadowRun) (ctx : Context) (little : Bool) (s : Shadow) (address : Nat),
        OnStack ctx s address ((expand runs).length * 16) →
          Stored s (writeShadow ctx little address s runs) (address / 16) (expand runs) := by
  constructor
  · rw [Function.expand_entryRuns_cuts]
    exact List.map_congr_left fun g _ => Function.entryValue_eq colored g
  · intro runs ctx little s address own
    have last := own.last
    have first := own.first
    have window := own.window
    rw [writeShadow_eq own.ready own.aligned own.oneStack (by omega) (by omega)]
    exact stored_store s (address / 16) (expand runs)

/-- The frame of two locals, and runs of every kind but the longest. -/
theorem Function.frame_shadow_written_twice :
    (∀ o ∈ twice.layout.1, IsColor o.color) ∧
      expand (twice.entryRuns twice.layout.1 (160 / 16) (cuts twice.layout.1 160) []) =
          (List.range (160 / 16)).map (twice.entryGranule twice.layout.1) ∧
        OnStack someStack blankShadow 0x10000 (73 * 16) ∧
          Stored blankShadow
            (writeShadow someStack true 0x10000 blankShadow [⟨3, 0xF1⟩, ⟨0, 0⟩, ⟨70, 5⟩])
            (0x10000 / 16) (expand [⟨3, 0xF1⟩, ⟨0, 0⟩, ⟨70, 5⟩]) := by
  have own : OnStack someStack blankShadow 0x10000 (73 * 16) :=
    ⟨by decide, by decide, by decide, by decide, by decide, by decide⟩
  have written := twice.frame_shadow_written twice.layout.1 160 fun o mem => layout_isColor mem
  exact ⟨fun o mem => layout_isColor mem, written.1, own,
    written.2 [⟨3, 0xF1⟩, ⟨0, 0⟩, ⟨70, 5⟩] someStack true blankShadow 0x10000 own⟩

end WeaveC.Pass
