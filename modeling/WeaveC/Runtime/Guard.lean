import WeaveC.Runtime.Shadow

/-!
# Range guards

`quickOk` decides short ranges from one load, `allAddressable` ranges whose
granules are whole, and `firstUnaddressable` every range, exactly.  The exact
search settles what returned frames left behind, so it returns the shadow too.
-/

namespace WeaveC.Runtime

open WeaveC.Library

/-- What the allocator knows of an address. -/
structure HeapObject where
  found : Bool
  live : Bool
  base : Nat
  size : Nat

/-- What the runtime's entry points read besides the shadow: the frame of the
entry point and the calling thread's own stack, whether a non-local exit has
cleared a stack's shadow, the allocator's answers, and the target. -/
structure Context where
  here : Nat
  stackBottom : Nat
  stackTop : Nat
  stackLostColors : Bool
  heapObjectAt : Nat → HeapObject
  aarch64 : Bool

inductive ReportKind where
  | heapBufferOverflow
  | heapUseAfterFree
  | stackBufferOverflow
  | dynamicStackBufferOverflow
  | stackUseAfterReturn
  | stackUseAfterScope
  | useAfterPoison
  | globalBufferOverflow
  | nullDereference
  | invalidAccess
  deriving DecidableEq, Repr

/-- The name a report prints. -/
def ReportKind.name : ReportKind → String
  | heapBufferOverflow => "heap-buffer-overflow"
  | heapUseAfterFree => "heap-use-after-free"
  | stackBufferOverflow => "stack-buffer-overflow"
  | dynamicStackBufferOverflow => "dynamic-stack-buffer-overflow"
  | stackUseAfterReturn => "stack-use-after-return"
  | stackUseAfterScope => "stack-use-after-scope"
  | useAfterPoison => "use-after-poison"
  | globalBufferOverflow => "global-buffer-overflow"
  | nullDereference => "null-dereference"
  | invalidAccess => "invalid-access"

structure Report where
  kind : ReportKind
  address : Nat
  width : Nat
  deriving DecidableEq, Repr

/-- A call of the runtime either reports or returns with the shadow as it
left it. -/
abbrev Outcome := Except Report Shadow

/-- Whether the call let the access through. -/
def Outcome.passes : Outcome → Bool
  | .ok _ => true
  | .error _ => false

@[simp] theorem Outcome.passes_ok (s : Shadow) : Outcome.passes (.ok s) = true := rfl

@[simp] theorem Outcome.passes_error (r : Report) : Outcome.passes (.error r) = false := rfl

/-! ## One load -/

/-- `weavecRtQuickOk`: the inline guard's chunk check; false when one
eight-byte load cannot tell. -/
def quickOk (s : Shadow) (address n : Nat) : Bool :=
  if n = 0 then true
  else if 113 < n ∨ ¬ s.Ready ∨ ¬ s.InWindow address then false
  else
    let last := (address &&& 15) + n - 1
    let shift := (last >>> 4) * 8
    let chunk := loadLE s.byte (s.index address) 8
    if shift ≠ 0 ∧ (chunk &&& ((1 <<< shift) - 1)) &&& 0x8080808080808080 ≠ 0 then false
    else
      let value := UInt8.ofNat (chunk >>> shift)
      decide (shadowFull value ∨ ¬ shadowPoison value ∧ (last &&& 15) < shadowBytes value)

/-! ## Whole granules -/

/-- The loop of `allAddressable` that reads eight granules at a time: where it
stops, or none when one of them is not whole. -/
def wholeEights (s : Shadow) (first granules i : Nat) : Option Nat :=
  if i + 8 < granules then
    if loadLE s.byte (first + i) 8 &&& 0x8080808080808080 ≠ 0 then none
    else wholeEights s first granules (i + 8)
  else some i
termination_by granules - i

/-- The loop that reads the remaining granules but the last. -/
def wholeOnes (s : Shadow) (first granules i : Nat) : Bool :=
  if i + 1 < granules then
    if ¬ shadowFull (s.byte (first + i)) then false
    else wholeOnes s first granules (i + 1)
  else true
termination_by granules - i

/-- Whether every byte of the range is addressable, when every granule but
the last is whole; false also when that cannot be decided so. -/
def allAddressable (s : Shadow) (address n : Nat) : Bool :=
  let last := (address + n - 1) % 2 ^ 64
  if n = 0 ∨ 1 <<< 30 < n ∨ last < address ∨ ¬ s.Ready ∨ ¬ s.InWindow address ∨
      ¬ s.InWindow last then false
  else
    let first := s.index address
    let granules := (last >>> 4) - (address >>> 4) + 1
    match wholeEights s first granules 0 with
    | none => false
    | some i =>
        if wholeOnes s first granules i then
          let value := s.byte (first + (granules - 1))
          decide (shadowFull value ∨ ¬ shadowPoison value ∧ (last &&& 15) < shadowBytes value)
        else false

/-! ## The exact search -/

/-- A granule a returned frame left is a returned frame's only below `here` on
the thread's own stack; any other is stale and is cleared. -/
def settle (ctx : Context) (granule : Nat) (v : UInt8) (s : Shadow) : UInt8 × Shadow :=
  if v ≠ ShadowValue.returned then (v, s)
  else if granule + 16 ≤ ctx.here ∧ ctx.stackBottom ≤ granule ∧ ctx.here < ctx.stackTop then (v, s)
  else (ShadowValue.addressable, s.put (s.index granule) ShadowValue.addressable)

/-- Eight granules at a time while they are all whole. -/
def skipWhole (s : Shadow) (stop granule : Nat) : Nat :=
  if granule + 128 ≤ stop ∧ granule &&& 127 = 0 ∧
      loadLE s.byte (s.index granule) 8 &&& 0x8080808080808080 = 0 then
    skipWhole s stop (granule + 128)
  else granule
termination_by stop - granule

theorem le_skipWhole (s : Shadow) (stop granule : Nat) : granule ≤ skipWhole s stop granule := by
  fun_induction skipWhole s stop granule with
  | case1 granule inside ih => omega
  | case2 granule outside => exact Nat.le_refl _

/-- The granule the search decides next, past whole ones, with its value. -/
def advance (ctx : Context) (stop : Nat) (s : Shadow) (granule : Nat) : Nat × UInt8 × Shadow :=
  let settled := settle ctx granule (s.of granule) s
  if shadowFull settled.1 then
    let granule := skipWhole settled.2 stop granule
    if stop ≤ granule then (granule, settled)
    else (granule, settle ctx granule (settled.2.of granule) settled.2)
  else (granule, settled)

theorem le_advance (ctx : Context) (stop : Nat) (s : Shadow) (granule : Nat) :
    granule ≤ (advance ctx stop s granule).1 := by
  unfold advance
  have := le_skipWhole (settle ctx granule (s.of granule) s).2 stop granule
  dsimp only
  split
  · split <;> exact this
  · exact Nat.le_refl _

/-- The search from `granule` on: the first byte of `[address, stop)` that is
not addressable, with its shadow value. -/
def scan (ctx : Context) (address stop : Nat) (s : Shadow) (granule : Nat) :
    Option (Nat × UInt8) × Shadow :=
  if granule < stop then
    let at' := advance ctx stop s granule
    if stop ≤ at'.1 then (none, at'.2.2)
    else if shadowFull at'.2.1 then scan ctx address stop at'.2.2 (at'.1 + 16)
    else
      let low := max at'.1 address
      let high := min (at'.1 + 16) stop
      if ¬ shadowPoison at'.2.1 then
        -- the first `k` bytes are addressable
        let k := shadowBytes at'.2.1
        if high ≤ at'.1 + k then scan ctx address stop at'.2.2 (at'.1 + 16)
        else (some (max low (at'.1 + k), at'.2.1), at'.2.2)
      else (some (low, at'.2.1), at'.2.2)
  else (none, s)
termination_by stop - granule
decreasing_by
  all_goals
    have := le_advance ctx stop s granule
    omega

/-- The address the hardware reaches: AArch64 ignores the top byte, so a
tagged address outside the window is decided as the one it reaches. -/
def reached (ctx : Context) (s : Shadow) (address : Nat) : Nat :=
  if ctx.aarch64 = true ∧ ¬ s.InWindow address ∧ s.InWindow (address &&& 0x00FFFFFFFFFFFFFF) then
    address &&& 0x00FFFFFFFFFFFFFF
  else address

/-- The end of the part of `[address, address + n)` that is decided: the part
inside the window of a range that leaves it. -/
def decidedEnd (s : Shadow) (address n : Nat) : Nat :=
  if 2 ^ 64 ≤ address + n ∨ ¬ s.InWindow (address + n - 1) then
    if 64 ≤ s.bits then 2 ^ 64 - 1 else 1 <<< s.bits
  else address + n

def firstUnaddressable (ctx : Context) (s : Shadow) (address n : Nat) :
    Option (Nat × UInt8) × Shadow :=
  let address := reached ctx s address
  if n = 0 ∨ ¬ s.Ready ∨ ¬ s.InWindow address then (none, s)
  else scan ctx address (decidedEnd s address n) s (address / 16 * 16)

/-! ## Reports -/

/-- The first poison within `looks` granules after `granule`. -/
def poisonAfter (s : Shadow) (granule : Nat) : Nat → Option UInt8
  | 0 => none
  | looks + 1 =>
      let next := granule + 16
      if ¬ s.InWindow next then none
      else if shadowPoison (s.of next) then some (s.of next)
      else poisonAfter s next looks

/-- The name of a failure whose first unaddressable byte has shadow `value`;
for a partial granule, the poison after it says whose object it is. -/
def kindOf (s : Shadow) (value : UInt8) (granule : Nat) : ReportKind :=
  match if shadowPoison value then some value else poisonAfter s granule 63 with
  | none => .useAfterPoison
  | some value =>
      if value = ShadowValue.heapTail then .heapBufferOverflow
      else if value = ShadowValue.heapFreed then .heapUseAfterFree
      else if value = ShadowValue.stackLeft ∨ value = ShadowValue.stackMid ∨
          value = ShadowValue.stackRight then .stackBufferOverflow
      else if value = ShadowValue.stackDynamic then .dynamicStackBufferOverflow
      else if value = ShadowValue.returned then .stackUseAfterReturn
      else if value = ShadowValue.stackScope then .stackUseAfterScope
      else if value = ShadowValue.user then .useAfterPoison
      else if value = ShadowValue.global then .globalBufferOverflow
      else if value = ShadowValue.null then .nullDereference
      else .invalidAccess

def failAt (ctx : Context) (s : Shadow) (bad : Nat) (value : UInt8) (address width : Nat) : Report :=
  -- a partial granule of the arena or a huge block is a heap object's
  let value :=
    if ¬ shadowPoison value ∧ (ctx.heapObjectAt bad).found = true then ShadowValue.heapTail
    else value
  ⟨kindOf s value (bad / 16 * 16), address, width⟩

/-- `__weavec_rt_guard`. -/
def guardSlow (ctx : Context) (s : Shadow) (address width : Nat) : Outcome :=
  match firstUnaddressable ctx s address width with
  | (none, s) => .ok s
  | (some (bad, value), s) => .error (failAt ctx s bad value address width)

/-- `__weavec_rt_range`. -/
def range (ctx : Context) (s : Shadow) (address n : Nat) : Outcome :=
  if quickOk s address n || allAddressable s address n then .ok s
  else
    match firstUnaddressable ctx s address n with
    | (none, s) => .ok s
    | (some (bad, value), s) => .error (failAt ctx s bad value address n)

/-- `__weavec_rt_range_ok`, with the shadow it leaves. -/
def rangeOk (ctx : Context) (s : Shadow) (address n : Nat) : Bool × Shadow :=
  if quickOk s address n || allAddressable s address n then (true, s)
  else
    match firstUnaddressable ctx s address n with
    | (none, s) => (true, s)
    | (some _, s) => (false, s)

end WeaveC.Runtime
