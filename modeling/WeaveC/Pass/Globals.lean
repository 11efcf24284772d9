import WeaveC.Alloc.Colors
import WeaveC.Pass.FrameSpec
import WeaveC.Runtime.Globals

/-!
# Globals of loaded units

The pass gives every tracked global a redzone and a record; the unit's
constructor hands the records to the runtime and its destructor takes them
back.  Over every sequence of loads and unloads, with the program's guards and
other writes of the shadow between them, the shadow of a loaded global decides
exactly its bytes.
-/

namespace WeaveC.Pass

open WeaveC.Runtime WeaveC.Library
open WeaveC.Alloc (Tint color_value not_sameColor shadowClass_partialOf tint_partialOf)

/-! ## The pass -/

/-- An `llvm::GlobalVariable`, as the pass reads it. -/
structure GlobalVariable where
  name : String
  isDeclaration : Bool
  hasInitializer : Bool
  hasExactDefinition : Bool
  isInterposable : Bool
  hasCommonLinkage : Bool
  hasAppendingLinkage : Bool
  hasLocalLinkage : Bool
  hasGlobalUnnamedAddr : Bool
  isConstant : Bool
  isThreadLocal : Bool
  hasSection : Bool
  hasComdat : Bool
  isExternallyInitialized : Bool
  addressSpace : Nat
  alignLog : Option Nat
  /-- `getTypeAllocSize`, unless it is scalable. -/
  allocSize : Option Nat
  deriving DecidableEq, Repr

namespace GlobalVariable

/-- `isTracked`. -/
def isTracked (global : GlobalVariable) : Bool :=
  if global.isDeclaration || !global.hasInitializer || !global.hasExactDefinition ||
      global.isInterposable || global.hasCommonLinkage || global.hasAppendingLinkage ||
      global.isThreadLocal || global.hasSection || global.hasComdat ||
      global.addressSpace != 0 || global.isExternallyInitialized then false
  else if ["llvm.", "__weavec", "__llvm"].any fun start =>
      start.toList.isPrefixOf global.name.toList then false
  -- string literals and the compiler's own tables
  else if global.isConstant && global.hasGlobalUnnamedAddr && global.hasLocalLinkage then false
  else if global.alignLog.any fun k => 4096 < 1 <<< k then false
  else global.allocSize.any fun size => size != 0

end GlobalVariable

/-- The variable that takes a tracked global's place, and its record. -/
structure GlobalReplacement where
  size : Nat
  padded : Nat
  alignment : Nat
  deriving DecidableEq, Repr

def globalReplacement (alignLog : Option Nat) (size : Nat) : GlobalReplacement where
  size := size
  padded := paddedSize size
  alignment := max 32 (1 <<< alignLog.getD 0)

/-- `instrumentGlobals`: the records it makes, in the order of the module. -/
def instrumentGlobals (globals : List GlobalVariable) : List GlobalReplacement :=
  (globals.filter GlobalVariable.isTracked).map fun global =>
    globalReplacement global.alignLog (global.allocSize.getD 0)

/-- The records, once the loader has placed the variables. -/
def link (replacements : List GlobalReplacement) (addresses : List Nat) : List Global :=
  (replacements.zip addresses).map fun pair => ⟨pair.2, pair.1.size, pair.1.padded⟩

/-! ## The process -/

structure Process where
  shadow : Shadow
  globalColors : Nat
  /-- The records of the units that are loaded. -/
  loaded : List (List Global)

inductive LoadEvent where
  /-- A unit is placed and its constructor runs. -/
  | load (unit : List GlobalVariable) (addresses : List Nat)
  /-- A unit's destructor runs. -/
  | unload (globals : List Global)
  /-- A guard of the program. -/
  | guard (ctx : Context) (address count : Nat)
  /-- Any other write of the shadow. -/
  | write (granule : Nat) (value : UInt8)

namespace Process

def globals (p : Process) : List Global := p.loaded.flatten

instance (g g' : Global) : Decidable (g.Apart g') := inferInstanceAs (Decidable (_ ∨ _))

instance (g : Global) (j : Nat) : Decidable (g.Covers j) := inferInstanceAs (Decidable (_ ∧ _))

/-- The loader aligns the variables and gives each its own memory. -/
def Places (bits : Nat) (p : Process) (replacements : List GlobalReplacement)
    (addresses : List Nat) : Prop :=
  addresses.length = replacements.length ∧
    (∀ pair ∈ replacements.zip addresses,
      pair.2 % pair.1.alignment = 0 ∧ pair.2 + pair.1.padded ≤ 1 <<< bits) ∧
    (link replacements addresses).Pairwise Global.Apart ∧
    ∀ g ∈ link replacements addresses, ∀ g' ∈ p.globals, g.Apart g'

instance (bits : Nat) (p : Process) (replacements : List GlobalReplacement)
    (addresses : List Nat) : Decidable (Places bits p replacements addresses) :=
  inferInstanceAs (Decidable (_ ∧ _))

/-- A guard that fails ends the process.  What else writes the shadow leaves
the granules of loaded globals alone. -/
def step (page : Nat) (p : Process) : LoadEvent → Option Process
  | .load unit addresses =>
      let replacements := instrumentGlobals unit
      if Places p.shadow.bits p replacements addresses then
        let table := link replacements addresses
        let (shadow, globalColors) := globalsRegister page p.shadow p.globalColors table
        some ⟨shadow, globalColors, table :: p.loaded⟩
      else none
  | .unload table =>
      if table ∈ p.loaded then
        some { p with shadow := globalsUnregister p.shadow table, loaded := p.loaded.erase table }
      else none
  | .guard ctx address count =>
      match range ctx p.shadow address count with
      | .ok shadow => some { p with shadow }
      | .error _ => none
  | .write granule value =>
      if p.globals.all fun g => decide (¬ g.Covers granule) then
        some { p with shadow := p.shadow.put granule value }
      else none

end Process

/-! ## What the loader and the constructor do -/

theorem globalReplacement_aligned (alignLog : Option Nat) (size : Nat) :
    32 ∣ (globalReplacement alignLog size).alignment := by
  generalize shift : alignLog.getD 0 = k
  have alignment : (globalReplacement alignLog size).alignment = max 32 (2 ^ k) := by
    unfold globalReplacement
    rw [shift, Nat.one_shiftLeft]
  rw [alignment]
  by_cases small : k < 5
  · have : 2 ^ k ≤ 32 := Nat.pow_le_pow_right (by decide) (Nat.le_of_lt small)
    rw [Nat.max_eq_left this]
  · obtain ⟨more, rfl⟩ := Nat.exists_eq_add_of_le (Nat.not_lt.mp small)
    refine dvd_max (Nat.dvd_refl 32) ?_
    rw [Nat.pow_add]
    exact Nat.dvd_mul_right _ _

/-- A linked record is a placed one with the pass's redzone. -/
theorem placed_of_mem_link {p : Process} {unit : List GlobalVariable} {addresses : List Nat}
    (places : p.Places p.shadow.bits (instrumentGlobals unit) addresses) {g : Global}
    (mem : g ∈ link (instrumentGlobals unit) addresses) :
    g.Placed p.shadow.bits ∧ g.padded = paddedSize g.size := by
  obtain ⟨⟨r, address⟩, paired, rfl⟩ := List.mem_map.mp mem
  obtain ⟨aligned, window⟩ := places.2.1 _ paired
  obtain ⟨global, -, rfl⟩ := List.mem_map.mp (List.of_mem_zip paired).1
  generalize size : global.allocSize.getD 0 = bytes at *
  have wide := lt_paddedSize bytes
  have whole : 32 ∣ paddedSize bytes := dvd_paddedSize bytes
  have granule : 32 ∣ address :=
    (globalReplacement_aligned global.alignLog bytes).trans (Nat.dvd_of_mod_eq_zero aligned)
  rw [Nat.one_shiftLeft] at window
  have placed : (⟨address, bytes, paddedSize bytes⟩ : Global).Placed p.shadow.bits := by
    refine ⟨?_, ?_, ?_, window⟩
    · dsimp only
      omega
    · dsimp only
      omega
    · dsimp only
      omega
  exact ⟨placed, rfl⟩

/-! ## The invariant -/

/-- The shadow shows the globals of a unit, in colors given out in turn. -/
def Shown (page : Nat) (s : Shadow) (table : List Global) : Prop :=
  ∃ n < 0x10000000000000000, ∀ (i : Nat) (g : Global), table[i]? = some g →
    ∀ rel < g.padded / 16,
      s.byte (g.address / 16 + rel) = g.byteAt page ((n + i) % 0x10000000000000000) rel

theorem Shown.congr {page : Nat} {s s' : Shadow} {table : List Global} (shown : Shown page s table)
    (same : ∀ g ∈ table, ∀ rel < g.padded / 16,
      s'.byte (g.address / 16 + rel) = s.byte (g.address / 16 + rel)) : Shown page s' table := by
  obtain ⟨n, bound, shows⟩ := shown
  refine ⟨n, bound, fun i g found rel below => ?_⟩
  rw [same g (List.mem_of_getElem? found) rel below, shows i g found rel below]

structure Process.Kept (page : Nat) (p : Process) : Prop where
  ready : p.shadow.Ready
  count : p.globalColors < 0x10000000000000000
  placed : ∀ g ∈ p.globals, g.Placed p.shadow.bits ∧ g.padded = paddedSize g.size
  apart : p.globals.Pairwise Global.Apart
  shows : ∀ table ∈ p.loaded, Shown page p.shadow table

namespace Process.Kept

variable {page : Nat} {p p' : Process}

theorem covers {g : Global} {bits rel : Nat} (placed : g.Placed bits) (below : rel < g.padded / 16) :
    g.Covers (g.address / 16 + rel) := by
  have granule := placed.granule
  have whole := placed.whole
  exact ⟨by omega, by omega⟩

/-- A loaded unit's globals are among the loaded ones. -/
theorem mem_globals {table : List Global} (mem : table ∈ p.loaded) {g : Global} (own : g ∈ table) :
    g ∈ p.globals :=
  List.mem_flatten_of_mem mem own

theorem load (kept : p.Kept page) (pages : 0 < page) {unit : List GlobalVariable}
    {addresses : List Nat} (places : p.Places p.shadow.bits (instrumentGlobals unit) addresses)
    (after : p' =
      ⟨(globalsRegister page p.shadow p.globalColors (link (instrumentGlobals unit) addresses)).1,
        (globalsRegister page p.shadow p.globalColors (link (instrumentGlobals unit) addresses)).2,
        link (instrumentGlobals unit) addresses :: p.loaded⟩) : p'.Kept page := by
  have fresh {g : Global} (mem : g ∈ link (instrumentGlobals unit) addresses) :=
    placed_of_mem_link places mem
  obtain ⟨-, -, inside, outside⟩ := places
  generalize link (instrumentGlobals unit) addresses = table at *
  have registered : Registered page p.globalColors p.shadow
      (globalsRegister page p.shadow p.globalColors table).1
      (globalsRegister page p.shadow p.globalColors table).2 table :=
    globalsRegister_registered kept.ready pages kept.count (fun g mem => (fresh mem).1) inside
  subst after
  have globals : (⟨(globalsRegister page p.shadow p.globalColors table).1,
      (globalsRegister page p.shadow p.globalColors table).2, table :: p.loaded⟩ :
        Process).globals = table ++ p.globals := List.flatten_cons
  refine ⟨registered.window.ready kept.ready, ?_, ?_, ?_, fun other mem => ?_⟩
  · rw [registered.count]
    exact Nat.mod_lt _ (by decide)
  · intro g mem
    rw [globals] at mem
    rw [registered.window.bits]
    rcases List.mem_append.mp mem with new | old
    · exact fresh new
    · exact kept.placed g old
  · rw [globals]
    exact List.pairwise_append.mpr ⟨inside, kept.apart, outside⟩
  · rcases List.mem_cons.mp mem with rfl | old
    · exact ⟨_, kept.count, registered.shows⟩
    · refine (kept.shows other old).congr fun g own rel below => ?_
      have loaded := mem_globals old own
      have placed := (kept.placed g loaded).1
      exact registered.others _ fun g' new =>
        (outside g' new g loaded).symm.not_covers placed (fresh new).1 (covers placed below)

theorem unload (kept : p.Kept page) {table : List Global} (mem : table ∈ p.loaded)
    (after : p' = { p with
      shadow := globalsUnregister p.shadow table, loaded := p.loaded.erase table }) :
    p'.Kept page := by
  have cleared := globalsUnregister_unregistered kept.ready fun g own =>
    (kept.placed g (mem_globals mem own)).1
  have split : p.globals.Perm (table ++ (p.loaded.erase table).flatten) := by
    rw [← List.flatten_cons]
    exact (List.perm_cons_erase mem).flatten
  have apart := (split.pairwise_iff fun {_ _} apart => apart.symm).mp kept.apart
  obtain ⟨-, rest, between⟩ := List.pairwise_append.mp apart
  have left {g : Global} (own : g ∈ (p.loaded.erase table).flatten) : g ∈ p.globals :=
    split.mem_iff.mpr (List.mem_append_right _ own)
  subst after
  refine ⟨cleared.window.ready kept.ready, kept.count, fun g own => ?_, rest, fun other old => ?_⟩
  · change g.Placed (globalsUnregister p.shadow table).bits ∧ _
    rw [cleared.window.bits]
    exact kept.placed g (left own)
  · refine (kept.shows other (List.mem_of_mem_erase old)).congr fun g own rel below => ?_
    have loaded := List.mem_flatten_of_mem old own
    have placed := (kept.placed g (left loaded)).1
    exact cleared.others _ fun g' gone =>
      (between g' gone g loaded).symm.not_covers placed
        (kept.placed g' (mem_globals mem gone)).1 (covers placed below)

/-- Writes that keep the granules of the loaded globals. -/
theorem of_shadow (kept : p.Kept page) {s : Shadow} (same : Shadow.SameWindow p.shadow s)
    (bytes : ∀ g ∈ p.globals, ∀ j, g.Covers j → s.byte j = p.shadow.byte j)
    (after : p' = { p with shadow := s }) : p'.Kept page := by
  subst after
  refine ⟨same.ready kept.ready, kept.count, fun g own => ?_, kept.apart, fun table mem => ?_⟩
  · change g.Placed s.bits ∧ _
    rw [same.bits]
    exact kept.placed g own
  · refine (kept.shows table mem).congr fun g own rel below => ?_
    have loaded := mem_globals mem own
    exact bytes g loaded _ (covers (kept.placed g loaded).1 below)

/-- Each loaded global with the color it was given. -/
theorem colored (kept : p.Kept page) {g : Global} (mem : g ∈ p.globals) :
    ∃ n, ∀ rel < g.padded / 16, p.shadow.byte (g.address / 16 + rel) = g.byteAt page n rel := by
  obtain ⟨table, loaded, own⟩ := List.mem_flatten.mp mem
  obtain ⟨n, -, shows⟩ := kept.shows table loaded
  obtain ⟨i, found⟩ := List.getElem?_of_mem own
  exact ⟨_, shows i g found⟩

/-- The memory of an unloaded unit is addressable. -/
theorem cleared (kept : p.Kept page) {table : List Global}
    (taken : p.step page (.unload table) = some p') {g : Global} (own : g ∈ table) {ctx : Context}
    {b : Nat} (low : g.address ≤ b) (high : b < g.address + g.padded) :
    Addressable ctx p'.shadow b := by
  unfold Process.step at taken
  dsimp only at taken
  split_ifs at taken with mem
  obtain rfl := Option.some.inj taken
  have cleared := globalsUnregister_unregistered kept.ready fun g own =>
    (kept.placed g (mem_globals mem own)).1
  obtain ⟨granule, whole, -, window⟩ := (kept.placed g (mem_globals mem own)).1
  have byte := cleared.clears g own (b / 16) ⟨by omega, by omega⟩
  rw [← cleared.window.bits] at window
  refine (addressable_iff (cleared.window.ready kept.ready) (by omega) ?_).mpr (.inl ?_)
  · rw [byte]
    decide
  · rw [byte]
    decide

theorem step (kept : p.Kept page) (pages : 0 < page) {e : LoadEvent}
    (taken : p.step page e = some p') : p'.Kept page := by
  cases e with
  | load unit addresses =>
      unfold Process.step at taken
      dsimp only at taken
      split_ifs at taken with places
      exact kept.load pages places (Option.some.inj taken).symm
  | unload table =>
      unfold Process.step at taken
      dsimp only at taken
      split_ifs at taken with mem
      exact kept.unload mem (Option.some.inj taken).symm
  | guard ctx address count =>
      unfold Process.step at taken
      dsimp only at taken
      cases passed : range ctx p.shadow address count with
      | error report => simp [passed] at taken
      | ok s =>
          rw [passed] at taken
          have same := range_settles passed
          refine kept.of_shadow ⟨same.bits, same.mask⟩ (fun g mem j covers => ?_)
            (Option.some.inj taken).symm
          obtain ⟨n, shows⟩ := kept.colored mem
          have placed := (kept.placed g mem).1
          refine (same.byte j).resolve_right fun settled => ?_
          have value := shows (j - g.address / 16) (by
            have granule := placed.granule
            have whole := placed.whole
            obtain ⟨low, high⟩ := covers
            omega)
          rw [Nat.add_sub_cancel' covers.1, settled.1] at value
          exact Global.byteAt_ne_returned value.symm
  | write granule value =>
      unfold Process.step at taken
      dsimp only at taken
      split_ifs at taken with elsewhere
      refine kept.of_shadow (s := p.shadow.put granule value) ⟨rfl, rfl⟩ (fun g mem j covers => ?_)
        (Option.some.inj taken).symm
      have apart := of_decide_eq_true (List.all_eq_true.mp elsewhere g mem)
      rw [Shadow.put_byte, if_neg]
      rintro rfl
      exact apart covers

end Process.Kept

/-! ## Colors of neighbours -/

/-- Colors given out at most five apart are of two classes, also where their
number or its remainder wraps. -/
theorem shadowClass_near {n k : Nat} (bound : n < 0x10000000000000000) (later : 0 < k)
    (near : k ≤ 5) :
    shadowClass (color n) ≠ shadowClass (color ((n + k) % 0x10000000000000000)) := by
  rw [(color_value n).2.2, (color_value _).2.2]
  by_cases fits : n + k < 0x10000000000000000
  · have same : (n + k) % 0x10000000000000000 = n + k := Nat.mod_eq_of_lt fits
    rw [same]
    have turn : (n + k) % 111 = n % 111 + k ∧ n % 111 + k < 111 ∨
        (n + k) % 111 + 111 = n % 111 + k := by omega
    omega
  · -- the count wraps between two colors of one remainder class
    have wrapped : (n + k) % 0x10000000000000000 = n + k - 0x10000000000000000 := by omega
    have last : n % 111 + (0x10000000000000000 - n) = 49 := by omega
    rw [wrapped]
    have first : (n + k - 0x10000000000000000) % 111 = n + k - 0x10000000000000000 := by omega
    rw [first]
    omega

section Colors

variable {page n m : Nat} {s : Shadow} {g g' : Global} {ctx : Context} {a b : Nat}

/-- A byte of a global shows the global's color, or its class. -/
theorem tint_of_shows (ready : s.Ready) (placed : g.Placed s.bits)
    (shows : ∀ rel < g.padded / 16, s.byte (g.address / 16 + rel) = g.byteAt page n rel)
    (low : g.address ≤ b) (high : b < g.address + g.size) :
    ¬ shadowPoison (s.of b) ∧ Tint (g.tint page n) (s.of b) := by
  obtain ⟨granule, whole, room, window⟩ := placed
  have value := shows (b / 16 - g.address / 16) (by omega)
  rw [show g.address / 16 + (b / 16 - g.address / 16) = b / 16 by omega] at value
  have reads : s.of b = s.byte (b / 16) := by
    unfold Shadow.of
    rw [Shadow.index_eq_div ready (by omega)]
  rw [reads, value]
  have colored := @Global.isColor_tint page n g
  by_cases own : b / 16 - g.address / 16 < g.size / 16
  · rw [Global.byteAt_whole own]
    refine ⟨fun poison => ?_, .inr (.inl rfl)⟩
    have full := colored.1
    unfold shadowFull at full
    unfold shadowPoison at poison
    omega
  · have small : g.size % 16 < 16 := by omega
    rw [Global.byteAt_end (by omega) (by omega)]
    exact ⟨(shadowPartialOf_value colored.2 small).2.1, tint_partialOf colored small⟩

/-- Bytes of one global agree in color. -/
theorem sameColor_of_tint {c v w : UInt8} (mine : Tint c v) (theirs : Tint c w)
    (clear : ¬ shadowPoison v) (clear' : ¬ shadowPoison w) : sameColor v w := by
  rcases mine with poison | rfl | ⟨notFull, same⟩
  · exact absurd poison clear
  · rcases theirs with poison' | rfl | ⟨notFull', same'⟩
    · exact absurd poison' clear'
    · exact .inl rfl
    · exact .inr ⟨.inr notFull', same'.symm⟩
  · rcases theirs with poison' | rfl | ⟨notFull', same'⟩
    · exact absurd poison' clear'
    · exact .inr ⟨.inl notFull, same⟩
    · exact .inr ⟨.inl notFull, same.trans same'.symm⟩

/-- A small global's bytes are colored. -/
theorem ne_zero_of_tint {v : UInt8} (mine : Tint (color n) v) (clear : ¬ shadowPoison v) :
    v ≠ 0 := by
  rintro rfl
  rcases mine with poison | same | ⟨notFull, -⟩
  · exact clear poison
  · exact (color_value n).2.1 same.symm
  · exact notFull (by decide)

/-- An access computed from one global that reaches another whose color is of
a different class. -/
theorem jumpKind_of_apart (ready : s.Ready) (inside : b < 2 ^ s.bits)
    (theirs : Tint (color m) (s.of b)) (clear : ¬ shadowPoison (s.of b))
    (mine : Tint (color n) (s.of a)) (clear' : ¬ shadowPoison (s.of a))
    (apart : shadowClass (color n) ≠ shadowClass (color m))
    (source : (ctx.heapObjectAt a).found = false) (target : (ctx.heapObjectAt b).found = false)
    (static : onStack ctx b = false) :
    jumpKind ctx s b a (s.of a) = some .globalBufferOverflow := by
  unfold jumpKind
  rw [if_neg (not_or.mpr ⟨not_not.mpr ready, not_not.mpr ((Shadow.inWindow_iff ready b).mpr inside)⟩)]
  dsimp only
  rw [if_neg (not_or.mpr ⟨clear, clear'⟩), if_neg (not_sameColor apart mine theirs clear' clear),
    if_neg (ne_zero_of_tint mine clear'),
    if_neg (fun both => ne_zero_of_tint theirs clear both.1), source, target, static]
  rfl

end Colors

/-! ## Every loaded global, over every run -/

/-- What the program's checks decide of a loaded global. -/
structure Decides (s : Shadow) (g : Global) : Prop where
  addressable : ∀ ctx b, g.address ≤ b → b < g.address + g.padded →
    (Addressable ctx s b ↔ b < g.address + g.size)
  passes : ∀ ctx address count, g.address ≤ address → address < g.address + g.padded →
    0 < count → ((range ctx s address count).passes = true ↔
      address + count ≤ g.address + g.size)
  /-- The allocator knows nothing of the global. -/
  reports : ∀ ctx address count,
    (∀ b, g.address ≤ b → b < g.address + g.padded → (ctx.heapObjectAt b).found = false) →
    g.address ≤ address → address < g.address + g.padded → 0 < count →
    g.address + g.size < address + count →
      range ctx s address count = .error ⟨.globalBufferOverflow, address, count⟩
  within : ∀ ctx a b, g.address ≤ a → a < g.address + g.size → g.address ≤ b →
    b < g.address + g.size → jumpKind ctx s b a (s.of a) = none

theorem Process.Kept.decides {page : Nat} {p : Process} (kept : p.Kept page) {g : Global}
    (mem : g ∈ p.globals) : Decides p.shadow g := by
  obtain ⟨n, shows⟩ := kept.colored mem
  have placed := (kept.placed g mem).1
  refine ⟨fun ctx b => Global.addressable_iff_of_shows kept.ready placed shows,
    fun ctx address count => Global.range_passes_of_shows kept.ready placed shows,
    fun ctx address count static low high nonempty beyond =>
      Global.range_of_shows kept.ready placed shows static low high beyond nonempty,
    fun ctx a b low high low' high' => ?_⟩
  obtain ⟨clear, mine⟩ := tint_of_shows kept.ready placed shows low high
  obtain ⟨clear', theirs⟩ := tint_of_shows kept.ready placed shows low' high'
  exact jumpKind_of_sameColor (sameColor_of_tint theirs mine clear' clear) a

/-- An access computed from one of the globals that reaches the other is
reported, where neither is on the heap or the stack. -/
def TellsApart (s : Shadow) (g g' : Global) : Prop :=
  ∀ ctx a b, g.address ≤ a → a < g.address + g.size → g'.address ≤ b → b < g'.address + g'.size →
    (ctx.heapObjectAt a).found = false → (ctx.heapObjectAt b).found = false →
    onStack ctx a = false → onStack ctx b = false →
      jumpKind ctx s b a (s.of a) = some .globalBufferOverflow ∧
        jumpKind ctx s a b (s.of b) = some .globalBufferOverflow

theorem Process.Kept.tellsApart {page : Nat} {p : Process} (kept : p.Kept page)
    {table : List Global} (loaded : table ∈ p.loaded) {i k : Nat} {g g' : Global} (later : 0 < k)
    (near : k ≤ 5) (here : table[i]? = some g) (there : table[i + k]? = some g')
    (small : g.size / 16 < 4 * page) (small' : g'.size / 16 < 4 * page) :
    TellsApart p.shadow g g' := by
  obtain ⟨n, bound, shows⟩ := kept.shows table loaded
  intro ctx a b low high low' high' source target static static'
  have placed := (kept.placed g (mem_globals loaded (List.mem_of_getElem? here))).1
  have placed' := (kept.placed g' (mem_globals loaded (List.mem_of_getElem? there))).1
  obtain ⟨clear, mine⟩ := tint_of_shows kept.ready placed (shows i g here) low high
  obtain ⟨clear', theirs⟩ := tint_of_shows kept.ready placed' (shows (i + k) g' there) low' high'
  have window := placed.window
  have window' := placed'.window
  have room := placed.room
  have room' := placed'.room
  unfold Global.tint at mine theirs
  rw [if_neg (Nat.not_le.mpr small)] at mine
  rw [if_neg (Nat.not_le.mpr small')] at theirs
  have apart := shadowClass_near (n := (n + i) % 0x10000000000000000) (Nat.mod_lt _ (by decide))
    later near
  have turn : ((n + i) % 0x10000000000000000 + k) % 0x10000000000000000 =
      (n + (i + k)) % 0x10000000000000000 := by omega
  rw [turn] at apart
  exact ⟨jumpKind_of_apart kept.ready (by omega) theirs clear' mine clear apart source target static',
    jumpKind_of_apart kept.ready (by omega) mine clear theirs clear' apart.symm target source static⟩

theorem Process.Kept.run {page : Nat} {p p' : Process} (pages : 0 < page)
    (ready : p.shadow.Ready) (count : p.globalColors < 0x10000000000000000) (start : p.loaded = [])
    (run : Run (Process.step page) (fun _ _ => True) p p') : p'.Kept page := by
  have empty : p.globals = [] := by
    unfold Process.globals
    rw [start]
    rfl
  refine run.invariant ⟨ready, count, ?_, ?_, ?_⟩ fun _ _ _ kept _ taken => kept.step pages taken
  · rw [empty]
    simp
  · rw [empty]
    exact .nil
  · rw [start]
    simp

section Reloaded

/-- A defined `static` variable. -/
def staticVariable (name : String) (allocSize : Nat) : GlobalVariable where
  name := name
  isDeclaration := false
  hasInitializer := true
  hasExactDefinition := true
  isInterposable := false
  hasCommonLinkage := false
  hasAppendingLinkage := false
  hasLocalLinkage := true
  hasGlobalUnnamedAddr := false
  isConstant := false
  isThreadLocal := false
  hasSection := false
  hasComdat := false
  isExternallyInitialized := false
  addressSpace := 0
  alignLog := some 3
  allocSize := some allocSize

def twoVariables : List GlobalVariable := [staticVariable "counts" 40, staticVariable "names" 5]

/-- A unit is loaded, unloaded, and loaded elsewhere. -/
def reloaded : List LoadEvent :=
  [.load twoVariables [0x400000, 0x400060],
    .unload [⟨0x400000, 40, 96⟩, ⟨0x400060, 5, 64⟩],
    .load twoVariables [0x400020, 0x400080]]

end Reloaded

end WeaveC.Pass
