import WeaveC.Runtime.Guard

/-!
# Colors

An access computed from a root is held to the root's object: its granule and
the root's must agree in color, as far as two shadow bytes can say.
-/

namespace WeaveC.Runtime

/-- Whether `address` lies on the calling thread's stack, above the entry
point's frame. -/
def onStack (ctx : Context) (address : Nat) : Bool :=
  decide (ctx.here ≤ address ∧ address < ctx.stackTop)

/-- Whether two shadow bytes may be one object's: equal, or of one color
class when one of them is a partial granule's. -/
def sameColor (v rootShadow : UInt8) : Prop :=
  v = rootShadow ∨
    (¬ shadowFull v ∨ ¬ shadowFull rootShadow) ∧ shadowClass v = shadowClass rootShadow

instance (v rootShadow : UInt8) : Decidable (sameColor v rootShadow) :=
  inferInstanceAs (Decidable (_ ∨ _))

/-- The kind of the failure of an access to `address` computed from `root`,
whose shadow byte was `rootShadow`, or none when it passes. -/
def jumpKind (ctx : Context) (s : Shadow) (address root : Nat) (rootShadow : UInt8) :
    Option ReportKind :=
  if ¬ s.Ready ∨ ¬ s.InWindow address then none
  else
    let v := s.of address
    if shadowPoison v ∨ shadowPoison rootShadow then none
    else if sameColor v rootShadow then none
    -- a root in uncolored memory has no object to hold the access to
    else if rootShadow = 0 then none
    else if v = 0 ∧ ctx.stackLostColors = true ∧ onStack ctx address = true then none
    else
      let target := ctx.heapObjectAt address
      let source := ctx.heapObjectAt root
      -- on the heap only an object's start is held to its color
      if source.found = true ∧ (target.base = source.base ∨ source.base ≠ root) then none
      else if target.found = true then some .heapBufferOverflow
      else if onStack ctx address = true then some .stackBufferOverflow
      else some .globalBufferOverflow

/-- `__weavec_rt_jump`. -/
def jumpSlow (ctx : Context) (s : Shadow) (address width root : Nat) (rootShadow : UInt8) :
    Outcome :=
  if width = 0 then .ok s
  else
    match jumpKind ctx s address root rootShadow with
    | none => .ok s
    | some kind => .error ⟨kind, address, width⟩

/-- `__weavec_rt_guard_jump`: the guard first, then the color. -/
def guardJumpSlow (ctx : Context) (s : Shadow) (address width root : Nat) (rootShadow : UInt8) :
    Outcome := do
  let s ← guardSlow ctx s address width
  jumpSlow ctx s address width root rootShadow

theorem jumpSlow_passes (ctx : Context) (s : Shadow) (address width root : Nat)
    (rootShadow : UInt8) :
    (jumpSlow ctx s address width root rootShadow).passes = true ↔
      width = 0 ∨ jumpKind ctx s address root rootShadow = none := by
  unfold jumpSlow
  split_ifs with empty
  · simp [empty]
  · cases jumpKind ctx s address root rootShadow <;> simp [empty]

/-- The color check writes no shadow. -/
theorem jumpSlow_ok {ctx : Context} {s s' : Shadow} {address width root : Nat}
    {rootShadow : UInt8} (passed : jumpSlow ctx s address width root rootShadow = .ok s') :
    s' = s := by
  unfold jumpSlow at passed
  split_ifs at passed
  · exact (Except.ok.inj passed).symm
  · cases found : jumpKind ctx s address root rootShadow with
    | none => simpa [found, eq_comm] using passed
    | some kind => simp [found] at passed

theorem jumpKind_of_sameColor {ctx : Context} {s : Shadow} {address : Nat} {rootShadow : UInt8}
    (same : sameColor (s.of address) rootShadow) (root : Nat) :
    jumpKind ctx s address root rootShadow = none := by
  simp only [jumpKind, same, if_true, ite_self]

theorem jumpKind_of_poison {ctx : Context} {s : Shadow} {address : Nat} {rootShadow : UInt8}
    (poison : shadowPoison (s.of address) ∨ shadowPoison rootShadow) (root : Nat) :
    jumpKind ctx s address root rootShadow = none := by
  simp only [jumpKind, poison, if_true, ite_self]

/-- The color test reads one shadow byte. -/
theorem jumpKind_congr {ctx : Context} {s s' : Shadow} {address : Nat} (bits : s'.bits = s.bits)
    (mask : s'.mask = s.mask) (byte : s'.of address = s.of address) (root : Nat)
    (rootShadow : UInt8) :
    jumpKind ctx s' address root rootShadow = jumpKind ctx s address root rootShadow := by
  unfold jumpKind Shadow.Ready Shadow.InWindow
  rw [bits, mask, byte]

end WeaveC.Runtime
