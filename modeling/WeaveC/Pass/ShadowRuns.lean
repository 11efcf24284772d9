import WeaveC.Runtime.Guard
import WeaveC.Runtime.ShadowWrite
import Mathlib.Data.List.Basic

/-!
# Shadow written by compiled code

A frame's shadow is constant: runs of granules of one value.  The pass writes
short runs with word stores, longer ones with a `memset`, and the longest
through the runtime, which keeps to the thread's stack.
-/

namespace WeaveC.Pass

open WeaveC.Runtime

structure ShadowRun where
  count : Nat
  value : UInt8
  deriving DecidableEq, Repr

/-- Appends `count` granules of `value`, merging equal neighbors. -/
def appendRun (runs : List ShadowRun) (count : Nat) (value : UInt8) : List ShadowRun :=
  if count = 0 then runs
  else
    match runs.getLast? with
    | some back =>
        if back.value = value then runs.dropLast ++ [⟨back.count + count, value⟩]
        else runs ++ [⟨count, value⟩]
    | none => [⟨count, value⟩]

/-- The granules of the runs. -/
def expand (runs : List ShadowRun) : List UInt8 :=
  runs.flatMap fun run => List.replicate run.count run.value

@[simp] theorem expand_nil : expand [] = [] := rfl

theorem expand_append (runs more : List ShadowRun) :
    expand (runs ++ more) = expand runs ++ expand more := List.flatMap_append

theorem expand_singleton (run : ShadowRun) : expand [run] = List.replicate run.count run.value := by
  simp [expand]

@[simp] theorem expand_appendRun (runs : List ShadowRun) (count : Nat) (value : UInt8) :
    expand (appendRun runs count value) = expand runs ++ List.replicate count value := by
  unfold appendRun
  split
  next none =>
    subst none
    exact (List.append_nil _).symm
  next =>
    split
    next back last =>
      split
      next same =>
        have parts : runs = runs.dropLast ++ [back] :=
          (List.dropLast_append_getLast? back (Option.mem_def.mpr last)).symm
        conv_rhs => rw [parts]
        simp only [expand_append, expand_singleton, same, List.append_assoc]
        rw [List.replicate_append_replicate]
      next => rw [expand_append, expand_singleton]
    next last =>
      obtain rfl := List.getLast?_eq_none_iff.mp last
      rw [expand_singleton]
      rfl

end WeaveC.Pass

namespace WeaveC.Runtime.Shadow

theorem eq_of_byte {s s' : Shadow} (bits : s.bits = s'.bits) (mask : s.mask = s'.mask)
    (byte : ∀ j, s.byte j = s'.byte j) : s = s' := by
  cases s
  cases s'
  obtain rfl := bits
  obtain rfl := mask
  obtain rfl := funext byte
  rfl

/-- Bytes stored one after another. -/
def store (s : Shadow) (i : Nat) (bytes : List UInt8) : Shadow :=
  { s with byte := fun j => if i ≤ j then bytes[j - i]?.getD (s.byte j) else s.byte j }

@[simp] theorem store_bits (s : Shadow) (i : Nat) (bytes : List UInt8) :
    (s.store i bytes).bits = s.bits := rfl

@[simp] theorem store_mask (s : Shadow) (i : Nat) (bytes : List UInt8) :
    (s.store i bytes).mask = s.mask := rfl

@[simp] theorem store_index (s : Shadow) (i : Nat) (bytes : List UInt8) (address : Nat) :
    (s.store i bytes).index address = s.index address := rfl

@[simp] theorem store_byte (s : Shadow) (i : Nat) (bytes : List UInt8) (j : Nat) :
    (s.store i bytes).byte j =
      if i ≤ j then bytes[j - i]?.getD (s.byte j) else s.byte j := rfl

@[simp] theorem store_nil (s : Shadow) (i : Nat) : s.store i [] = s := by
  refine eq_of_byte rfl rfl ?_
  intro j
  simp

/-- A store after a store is one of both. -/
theorem store_append (s : Shadow) (i : Nat) (bytes more : List UInt8) :
    (s.store i bytes).store (i + bytes.length) more = s.store i (bytes ++ more) := by
  refine eq_of_byte rfl rfl ?_
  intro j
  simp only [store_byte]
  by_cases later : i + bytes.length ≤ j
  · have past : bytes.length ≤ j - i := by omega
    have rest : j - (i + bytes.length) = j - i - bytes.length := by omega
    have above : i ≤ j := by omega
    rw [if_pos later, if_pos above, if_pos above, List.getElem?_append_right past,
      List.getElem?_eq_none past, rest]
    rfl
  · rw [if_neg later]
    by_cases above : i ≤ j
    · have within : j - i < bytes.length := by omega
      rw [if_pos above, if_pos above, List.getElem?_append_left within]
    · rw [if_neg above, if_neg above]

theorem memset_eq_store (s : Shadow) (i : Nat) (v : UInt8) (n : Nat) :
    s.memset i v n = s.store i (List.replicate n v) := by
  refine eq_of_byte rfl rfl ?_
  intro j
  simp only [memset_byte, store_byte, List.getElem?_replicate]
  by_cases above : i ≤ j
  · by_cases within : j < i + n
    · have : j - i < n := by omega
      rw [if_pos ⟨above, within⟩, if_pos above, if_pos this]
      rfl
    · have : ¬ j - i < n := by omega
      rw [if_neg (fun both => within both.2), if_pos above, if_neg this]
      rfl
  · rw [if_neg (fun both => above both.1), if_neg above]

end WeaveC.Runtime.Shadow

namespace WeaveC.Runtime

/-- `__weavec_rt_frame_shadow`: what lies on the thread's own stack, or, on
another stack, up to 1 GiB. -/
def frameShadow (ctx : Context) (s : Shadow) (address bytes : Nat) (value : UInt8) : Shadow :=
  let stop := if 2 ^ 64 ≤ address + bytes then 2 ^ 64 - 1 else address + bytes
  let own := ctx.stackTop ≠ 0 ∧ address < ctx.stackTop ∧ ctx.stackBottom < stop
  let low := if own ∧ address < ctx.stackBottom then ctx.stackBottom else address
  let high := if own ∧ ctx.stackTop < stop then ctx.stackTop else stop
  if ¬ own ∧ 1 <<< 30 < stop - address then s
  else if high ≤ low then s
  else if value = ShadowValue.addressable then s.clear low high
  else s.set low (high - low) value

/-- A stretch of the thread's own stack, or one of at most 1 GiB apart from
it. -/
def OneStack (ctx : Context) (low high : Nat) : Prop :=
  (ctx.stackBottom ≤ low ∧ high ≤ ctx.stackTop) ∨
    ((ctx.stackTop ≤ low ∨ high ≤ ctx.stackBottom) ∧ high - low ≤ 1 <<< 30)

theorem OneStack.mono {ctx : Context} {low high low' high' : Nat} (one : OneStack ctx low high)
    (above : low ≤ low') (below : high' ≤ high) : OneStack ctx low' high' := by
  unfold OneStack at one ⊢
  omega

/-- The part of such a stretch that `__weavec_rt_frame_shadow` writes is all of
it. -/
theorem frameShadow_whole {ctx : Context} {s : Shadow} {address bytes : Nat} (some : 0 < bytes)
    (one : OneStack ctx address (address + bytes)) (small : address + bytes < 2 ^ 64)
    (value : UInt8) :
    frameShadow ctx s address bytes value =
      if value = ShadowValue.addressable then s.clear address (address + bytes)
      else s.set address (address + bytes - address) value := by
  have not_wrapped : ¬ 2 ^ 64 ≤ address + bytes := Nat.not_le.mpr small
  have some_bytes : ¬ address + bytes ≤ address := by omega
  unfold frameShadow
  simp only [if_neg not_wrapped]
  by_cases own : ctx.stackTop ≠ 0 ∧ address < ctx.stackTop ∧ ctx.stackBottom < address + bytes
  · have not_below : ¬ address < ctx.stackBottom := by
      unfold OneStack at one
      omega
    have not_above : ¬ ctx.stackTop < address + bytes := by
      unfold OneStack at one
      omega
    simp only [own, not_below, not_above, and_true, and_false, ne_eq, not_false_eq_true,
      not_true_eq_false, false_and, if_false, if_neg some_bytes]
  · have short : ¬ 1 <<< 30 < address + bytes - address := by
      unfold OneStack at one
      omega
    simp only [own, short, and_false, false_and, if_false, if_neg some_bytes]

/-- On one stack, inside the window, a run is written whole. -/
theorem frameShadow_eq {ctx : Context} {s : Shadow} (ready : s.Ready) {address count : Nat}
    (aligned : address % 16 = 0) (some : 0 < count)
    (one : OneStack ctx address (address + count * 16))
    (inside : address + count * 16 ≤ 2 ^ s.bits) (value : UInt8) :
    frameShadow ctx s address (count * 16) value =
      s.store (address / 16) (List.replicate count value) := by
  have narrow : 2 ^ s.bits ≤ 2 ^ 56 := Nat.pow_le_pow_right (by decide) ready.bounds.2.2
  have first : s.InWindow address := (s.inWindow_iff ready address).mpr (by omega)
  have last : s.InWindow (address + count * 16 - 1) :=
    (s.inWindow_iff ready _).mpr (by omega)
  have granules : (address + count * 16 + 15) / 16 = address / 16 + count := by omega
  have length : (address + count * 16 - address + 15) / 16 = count := by omega
  rw [frameShadow_whole (by omega) one (by omega), ← Shadow.memset_eq_store]
  by_cases cleared : value = ShadowValue.addressable
  · have same := Shadow.sameWindow_clear s address (address + count * 16)
    rw [if_pos cleared]
    refine Shadow.eq_of_byte same.bits same.mask ?_
    intro j
    rw [Shadow.clear_byte ready (by omega) first last, Shadow.memset_byte, granules, cleared]
    rfl
  · have same := Shadow.sameWindow_set s address (address + count * 16 - address) value
    rw [if_neg cleared]
    refine Shadow.eq_of_byte same.bits same.mask ?_
    intro j
    rw [Shadow.set_byte ready first, Shadow.memset_byte, length]

end WeaveC.Runtime

namespace WeaveC.Pass

open WeaveC.Runtime

/-! ## The code that writes runs -/

def MemsetRun : Nat := 64
def RuntimeRun : Nat := 4096

/-- The widest store that fits. -/
def storeWidth (little : Bool) (left : Nat) : Nat :=
  if little then if 8 ≤ left then 8 else if 4 ≤ left then 4 else if 2 ≤ left then 2 else 1
  else 1

/-- The stores of the pending granules; each takes at least one of the `left`
ones. -/
def flush (little : Bool) : Nat → Shadow → Nat → List UInt8 → Shadow
  | 0, s, _, _ => s
  | left + 1, s, i, pending =>
      if pending = [] then s
      else
        let width := storeWidth little pending.length
        flush little left (s.store i (pending.take width)) (i + width) (pending.drop width)

/-- The shadow as the code emitted so far leaves it, the granules still to
store, where they start, and how many granules the runs so far have. -/
structure Emitted where
  shadow : Shadow
  pending : List UInt8
  pendingAt : Nat
  done : Nat

section Writing

variable (ctx : Context) (little : Bool) (address : Nat)

def emitRun (start : Nat) (e : Emitted) (run : ShadowRun) : Emitted :=
  if run.count < MemsetRun then
    { e with
      pendingAt := if e.pending = [] then e.done else e.pendingAt
      pending := e.pending ++ List.replicate run.count run.value
      done := e.done + run.count }
  else
    let s := flush little e.pending.length e.shadow (start + e.pendingAt) e.pending
    if RuntimeRun ≤ run.count then
      ⟨frameShadow ctx s (address + e.done * 16) (run.count * 16) run.value, [], e.pendingAt,
        e.done + run.count⟩
    else
      ⟨s.memset (start + e.done) run.value run.count, [], e.pendingAt, e.done + run.count⟩

/-- `FunctionContext::writeShadow`. -/
def writeShadow (s : Shadow) (runs : List ShadowRun) : Shadow :=
  if s.Ready then
    let start := s.index address
    let e := runs.foldl (emitRun ctx little address start) ⟨s, [], 0, 0⟩
    flush little e.pending.length e.shadow (start + e.pendingAt) e.pending
  else s

end Writing

theorem storeWidth_pos (little : Bool) (left : Nat) : 0 < storeWidth little left := by
  unfold storeWidth
  split_ifs <;> decide

theorem storeWidth_le {little : Bool} {left : Nat} (some : 0 < left) :
    storeWidth little left ≤ left := by
  unfold storeWidth
  split_ifs <;> assumption

/-- The stores together are one store of the pending granules. -/
theorem flush_eq (little : Bool) {left : Nat} (s : Shadow) (i : Nat) (pending : List UInt8)
    (enough : pending.length ≤ left) : flush little left s i pending = s.store i pending := by
  induction left generalizing s i pending with
  | zero =>
    obtain rfl := List.eq_nil_of_length_eq_zero (Nat.le_zero.mp enough)
    exact (s.store_nil i).symm
  | succ left ih =>
    unfold flush
    split
    next none =>
      subst none
      exact (s.store_nil i).symm
    next some =>
      have positive := storeWidth_pos little pending.length
      have fits := @storeWidth_le little _ (List.length_pos_iff.mpr some)
      have taken : (pending.take (storeWidth little pending.length)).length =
          storeWidth little pending.length := List.length_take_of_le fits
      have fewer : (pending.drop (storeWidth little pending.length)).length ≤ left := by
        rw [List.length_drop]
        omega
      simp only
      rw [ih _ _ _ fewer]
      conv_lhs =>
        enter [2]
        rw [← taken]
      rw [Shadow.store_append, List.take_append_drop]

/-- What the code emitted so far has written, with what is pending, is the
runs' granules. -/
structure Emitted.Wrote (e : Emitted) (s : Shadow) (start : Nat) (bytes : List UInt8) : Prop where
  done : e.done = bytes.length
  bits : e.shadow.bits = s.bits
  mask : e.shadow.mask = s.mask
  stored : e.shadow.store (start + e.pendingAt) e.pending = s.store start bytes
  at_end : e.pending ≠ [] → e.pendingAt + e.pending.length = e.done

section Wrote

variable {ctx : Context} {little : Bool} {address : Nat} {s : Shadow} {e : Emitted}
  {bytes : List UInt8} {run : ShadowRun}

/-- What is stored once the pending granules are. -/
theorem Emitted.Wrote.flush (wrote : e.Wrote s (address / 16) bytes) :
    Pass.flush little e.pending.length e.shadow (address / 16 + e.pendingAt) e.pending =
      s.store (address / 16) bytes := by
  rw [flush_eq little _ _ _ (Nat.le_refl _)]
  exact wrote.stored

theorem Emitted.Wrote.short (wrote : e.Wrote s (address / 16) bytes) (short : run.count < MemsetRun) :
    (emitRun ctx little address (address / 16) e run).Wrote s (address / 16)
      (bytes ++ List.replicate run.count run.value) := by
  have length : e.done + run.count = (bytes ++ List.replicate run.count run.value).length := by
    rw [List.length_append, List.length_replicate, wrote.done]
  unfold emitRun
  rw [if_pos short]
  by_cases none : e.pending = []
  · refine ⟨length, wrote.bits, wrote.mask, ?_, ?_⟩
    · have stored := wrote.stored
      rw [none, Shadow.store_nil] at stored
      simp only [none, if_true, List.nil_append]
      rw [stored, wrote.done, Shadow.store_append]
    · intro _
      simp only [none, if_true, List.nil_append, List.length_replicate]
  · refine ⟨length, wrote.bits, wrote.mask, ?_, ?_⟩
    · have at_end := wrote.at_end none
      simp only [if_neg none]
      rw [← Shadow.store_append, wrote.stored, Nat.add_assoc, at_end, wrote.done,
        Shadow.store_append]
    · intro _
      have at_end := wrote.at_end none
      simp only [if_neg none, List.length_append, List.length_replicate]
      omega

theorem Emitted.Wrote.long (wrote : e.Wrote s (address / 16) bytes) (ready : s.Ready)
    (aligned : address % 16 = 0) (long : MemsetRun ≤ run.count)
    (one : OneStack ctx address (address + (bytes.length + run.count) * 16))
    (inside : address + (bytes.length + run.count) * 16 ≤ 2 ^ s.bits) :
    (emitRun ctx little address (address / 16) e run).Wrote s (address / 16)
      (bytes ++ List.replicate run.count run.value) := by
  have length : e.done + run.count = (bytes ++ List.replicate run.count run.value).length := by
    rw [List.length_append, List.length_replicate, wrote.done]
  have next : (address + e.done * 16) / 16 = address / 16 + bytes.length := by
    rw [wrote.done]
    omega
  have some : 0 < run.count := Nat.lt_of_lt_of_le (by decide) long
  have not_short : ¬ run.count < MemsetRun := Nat.not_lt.mpr long
  have ready' : (s.store (address / 16) bytes).Ready := ready
  have written : frameShadow ctx (s.store (address / 16) bytes) (address + e.done * 16)
      (run.count * 16) run.value =
        s.store (address / 16) (bytes ++ List.replicate run.count run.value) := by
    rw [frameShadow_eq ready', next, Shadow.store_append]
    · omega
    · exact some
    · rw [wrote.done]
      exact one.mono (by omega) (by omega)
    · rw [wrote.done, Shadow.store_bits]
      omega
  unfold emitRun
  simp only [if_neg not_short, wrote.flush]
  by_cases longest : RuntimeRun ≤ run.count
  · rw [if_pos longest, written]
    exact ⟨length, rfl, rfl, Shadow.store_nil _ _, fun some => absurd rfl some⟩
  · rw [if_neg longest, Shadow.memset_eq_store, wrote.done, Shadow.store_append, ← wrote.done]
    exact ⟨length, rfl, rfl, Shadow.store_nil _ _, fun some => absurd rfl some⟩

end Wrote

/-- Inside the window, on one stack, the code writes the runs'
granules one after another. -/
theorem writeShadow_eq {ctx : Context} {little : Bool} {address : Nat} {s : Shadow}
    {runs : List ShadowRun} (ready : s.Ready) (aligned : address % 16 = 0)
    (one : OneStack ctx address (address + (expand runs).length * 16))
    (inside : address + (expand runs).length * 16 ≤ 2 ^ s.bits) (fits : address < 2 ^ s.bits) :
    writeShadow ctx little address s runs = s.store (address / 16) (expand runs) := by
  have start : s.index address = address / 16 := Shadow.index_eq_div ready fits
  have fold (done : List ShadowRun) (e : Emitted) (wrote : e.Wrote s (address / 16) (expand done))
      (rest : List ShadowRun) (whole : runs = done ++ rest) :
      (rest.foldl (emitRun ctx little address (address / 16)) e).Wrote s (address / 16)
        (expand runs) := by
    induction rest generalizing done e with
    | nil =>
      rw [whole, List.append_nil]
      exact wrote
    | cons run rest ih =>
      have lengths : (expand runs).length =
          (expand done).length + run.count + (expand rest).length := by
        rw [whole, expand_append, List.length_append, ← List.singleton_append, expand_append,
          expand_singleton, List.length_append, List.length_replicate, Nat.add_assoc]
      rw [List.foldl_cons]
      refine ih (done ++ [run]) _ ?_ ?_
      · rw [expand_append, expand_singleton]
        by_cases short : run.count < MemsetRun
        · exact wrote.short short
        · exact wrote.long ready aligned (Nat.not_lt.mp short)
            (one.mono (Nat.le_refl _) (by omega)) (by omega)
      · rw [whole, List.append_assoc, List.singleton_append]
  have initial : (⟨s, [], 0, 0⟩ : Emitted).Wrote s (address / 16) (expand []) :=
    ⟨rfl, rfl, rfl, by rw [Shadow.store_nil, expand_nil, Shadow.store_nil],
      fun some => absurd rfl some⟩
  unfold writeShadow
  simp only [if_pos ready, start]
  exact (fold [] _ initial runs rfl).flush

end WeaveC.Pass
