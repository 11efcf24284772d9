import WeaveC.Alloc.Branches
import WeaveC.Alloc.Marks
import WeaveC.Alloc.Partition

/-!
# What a step writes

Few of a thread's steps write the shadow, change the huge blocks or extend a
region.  `Effect` names them, with what each does to the heap; all other steps
leave these alone.  No step makes a slot one that was never handed out.
-/

namespace WeaveC.Alloc

open WeaveC.Runtime WeaveC.Library

variable {T : Type} {A : Arena} {place : Slot → Place T} {h h' : Heap} {th th' : Thread}

/-! ## Slots never handed out, and live ones -/

/-- The region has as much committed; a slot never handed out was not before
either, and a live one's word is what it was. -/
structure Region.Older (R R' : Region) : Prop where
  committed : R'.committed = R.committed
  never : ∀ i, (R'.words i).state = .never → (R.words i).state = .never
  live : ∀ i, (R'.words i).state = .live → R'.words i = R.words i

namespace Region.Older

variable {R R' R'' : Region}

theorem refl (R : Region) : R.Older R := ⟨rfl, fun _ => id, fun _ _ => rfl⟩

theorem trans (first : R.Older R') (second : R'.Older R'') : R.Older R'' := by
  refine ⟨second.committed.trans first.committed,
    fun i unused => first.never i (second.never i unused), fun i live => ?_⟩
  have same := second.live i live
  rw [same] at live ⊢
  exact first.live i live

/-- A slot that becomes neither live nor one that was never handed out. -/
theorem setWord (R : Region) (slot : Nat) {w : Word} (used : w.state ≠ .never)
    (dead : w.state ≠ .live) : R.Older (R.setWord slot w) := by
  have other {i : Nat} (here : (Function.update R.words slot w i).state = .never ∨
      (Function.update R.words slot w i).state = .live) :
      Function.update R.words slot w i = R.words i := by
    refine Function.update_of_ne (fun same => ?_) w R.words
    subst same
    rw [Function.update_self] at here
    exact here.elim used dead
  refine ⟨rfl, fun i unused => ?_, fun i live => other (.inr live)⟩
  have same := other (.inl unused)
  exact same ▸ unused

/-- What is neither committed memory nor a word does not matter. -/
theorem congr (older : R.Older R') (committed : R''.committed = R'.committed)
    (words : R''.words = R'.words) : R.Older R'' :=
  older.trans ⟨committed, fun _ unused => words ▸ unused, fun _ _ => congrFun words _⟩

theorem giveBack (R : Region) (slot : Nat) : R.Older (R.giveBack slot) :=
  (setWord R slot (w := ⟨R.freeHead, .free⟩) WordState.noConfusion WordState.noConfusion).congr
    rfl rfl

theorem enqueue (R : Region) (slot : Nat) : R.Older (R.enqueue slot) := by
  have first : R.Older (R.setWord slot ⟨0, .dead⟩) :=
    setWord R slot WordState.noConfusion WordState.noConfusion
  by_cases some : R.deadTail ≠ 0
  · rw [Region.enqueue_behind some]
    exact (first.trans (setWord _ (R.deadTail - 1) (w := ⟨slot + 1, .dead⟩)
      WordState.noConfusion WordState.noConfusion)).congr rfl rfl
  · rw [Region.enqueue_first (not_not.mp some)]
    exact first.congr rfl rfl

/-- A recycled slot's word is that of a free or a queued slot. -/
theorem recycleBelow (recycle : Bool) (marks : Nat → Bool) (slot : Nat) (r : Recycling) (i : Nat) :
    (Region.recycleBelow recycle marks slot r).words i = r.words i ∨
      ((Region.recycleBelow recycle marks slot r).words i).state = .free ∨
        ((Region.recycleBelow recycle marks slot r).words i).state = .dead := by
  have stored {w : Word} (kind : w.state = .free ∨ w.state = .dead) (words : Nat → Word) (j : Nat) :
      Function.update words j w i = words i ∨ (Function.update words j w i).state = .free ∨
        (Function.update words j w i).state = .dead := by
    by_cases same : i = j
    · subst same
      rw [Function.update_self]
      exact .inr kind
    · exact .inl (Function.update_of_ne same w words)
  have first (slot : Nat) (r : Recycling) :
      (Region.recycleSlot recycle marks slot r).words i = r.words i ∨
        ((Region.recycleSlot recycle marks slot r).words i).state = .free ∨
          ((Region.recycleSlot recycle marks slot r).words i).state = .dead := by
    unfold Region.recycleSlot
    dsimp only
    split
    · exact .inl rfl
    · split
      · exact stored (.inr rfl) _ _
      · exact stored (.inl rfl) _ _
  induction slot generalizing r with
  | zero => exact .inl rfl
  | succ slot ih =>
      rcases ih (Region.recycleSlot recycle marks slot r) with same | written
      · unfold Region.recycleBelow
        rw [same]
        exact first slot r
      · exact .inr written

theorem recycle (R : Region) (recycle : Bool) : R.Older (R.recycle recycle).1 := by
  unfold Region.recycle
  split
  · exact refl R
  · rename_i marks _
    split_ifs
    · exact refl R
    · have kinds := recycleBelow recycle marks R.bump ⟨R.words, R.freeHead, 0, R.deadTail, 0⟩
      refine ⟨rfl, fun i unused => ?_, fun i live => ?_⟩
      · rcases kinds i with same | free | dead
        · exact (congrArg Word.state same).symm.trans unused
        · exact absurd (unused.symm.trans free) WordState.noConfusion
        · exact absurd (unused.symm.trans dead) WordState.noConfusion
      · rcases kinds i with same | free | dead
        · exact same
        · exact absurd (live.symm.trans free) WordState.noConfusion
        · exact absurd (live.symm.trans dead) WordState.noConfusion

end Region.Older

/-- Taking a spare changes no region but in its class and its links. -/
theorem Table.takeSpare_region {t t' : Table} {c : Nat} (taken : t.takeSpare c = some t')
    (r : Nat) : ∃ entry cls next,
      t'.region r = { t.region r with entry, regionClass := cls, regionNext := next } := by
  unfold Table.takeSpare at taken
  dsimp only at taken
  split_ifs at taken
  obtain rfl := Option.some.inj taken
  have spare (r : Nat) : ∃ entry cls, Function.update t.region t.regions
      { t.region t.regions with entry := (t.region c).entry, regionClass := c } r =
        { t.region r with entry, regionClass := cls } := by
    by_cases same : r = t.regions
    · subst same
      rw [Function.update_self]
      exact ⟨_, _, rfl⟩
    · rw [Function.update_of_ne same]
      exact ⟨_, _, rfl⟩
  change ∃ entry cls next, t.withSpare c t.regions (t.lastOf RegionCount c) r = _
  unfold Table.withSpare
  dsimp only
  obtain ⟨entry, cls, eq⟩ := spare r
  by_cases same : r = t.lastOf RegionCount c
  · subst same
    rw [Function.update_self, eq]
    exact ⟨entry, cls, _, rfl⟩
  · rw [Function.update_of_ne same, eq]
    exact ⟨entry, cls, _, rfl⟩

/-- Every region is older. -/
def Table.Older (t t' : Table) : Prop := ∀ r, (t.region r).Older (t'.region r)

namespace Table.Older

variable {t t' t'' : Table}

theorem refl (t : Table) : t.Older t := fun r => .refl (t.region r)

theorem trans (first : t.Older t') (second : t'.Older t'') : t.Older t'' :=
  fun r => (first r).trans (second r)

theorem setRegion (t : Table) {r : Nat} {R : Region} (older : (t.region r).Older R) :
    t.Older (t.setRegion r R) := by
  intro r'
  change (t.region r').Older (Function.update t.region r R r')
  by_cases same : r' = r
  · subst same
    rw [Function.update_self]
    exact older
  · rw [Function.update_of_ne same]
    exact .refl _

theorem giveBack (t : Table) (region slot : Nat) :
    t.Older (t.setRegion region ((t.region region).giveBack slot)) :=
  setRegion t (.giveBack _ _)

theorem of_sameSlots (same : t.SameSlots t') : t.Older t' := by
  intro r
  obtain ⟨marks, eq⟩ := same.region r
  rw [eq]
  exact ⟨rfl, fun _ => id, fun _ _ => rfl⟩

theorem takeSpare {c : Nat} (taken : t.takeSpare c = some t') : t.Older t' := by
  intro r
  obtain ⟨entry, cls, next, eq⟩ := takeSpare_region taken r
  rw [eq]
  exact ⟨rfl, fun _ => id, fun _ _ => rfl⟩

theorem enqueueRun (slots : Nat → Entry) (i n : Nat) (t : Table) :
    t.Older (Thread.enqueueRun slots i n t) := by
  induction n generalizing i t with
  | zero => exact refl t
  | succ n ih =>
      unfold Thread.enqueueRun
      exact (setRegion t (.enqueue _ _)).trans (ih (i + 1) _)

theorem recycleRegions (t : Table) (recycle : Bool) :
    t.Older
      { t with
        region := fun r =>
          if r < t.regions then ((t.region r).recycle recycle).1 else t.region r } := by
  intro r
  dsimp only
  split
  · exact .recycle _ _
  · exact .refl _

end Table.Older

/-- The region has the marks it had, and a free slot was free before. -/
structure Region.Steady (R R' : Region) : Prop where
  marks : R'.marks = R.marks
  free : ∀ i, (R'.words i).state = .free → (R.words i).state = .free

namespace Region.Steady

variable {R R' R'' : Region}

theorem refl (R : Region) : R.Steady R := ⟨rfl, fun _ => id⟩

theorem trans (first : R.Steady R') (second : R'.Steady R'') : R.Steady R'' :=
  ⟨second.marks.trans first.marks, fun i free => first.free i (second.free i free)⟩

theorem setWord (R : Region) (slot : Nat) {w : Word} (used : w.state ≠ .free) :
    R.Steady (R.setWord slot w) := by
  refine ⟨rfl, fun i free => ?_⟩
  change (Function.update R.words slot w i).state = .free at free
  by_cases same : i = slot
  · subst same
    rw [Function.update_self] at free
    exact absurd free used
  · rw [Function.update_of_ne same] at free
    exact free

/-- Only the marks and the words matter. -/
theorem congr (steady : R.Steady R') (marks : R''.marks = R'.marks)
    (words : R''.words = R'.words) : R.Steady R'' :=
  steady.trans ⟨marks, fun _ free => words ▸ free⟩

theorem enqueue (R : Region) (slot : Nat) : R.Steady (R.enqueue slot) := by
  have first : R.Steady (R.setWord slot ⟨0, .dead⟩) := setWord R slot WordState.noConfusion
  by_cases some : R.deadTail ≠ 0
  · rw [Region.enqueue_behind some]
    exact (first.trans (setWord _ (R.deadTail - 1) (w := ⟨slot + 1, .dead⟩)
      WordState.noConfusion)).congr rfl rfl
  · rw [Region.enqueue_first (not_not.mp some)]
    exact first.congr rfl rfl

end Region.Steady

/-- Every region is steady. -/
def Table.Steady (t t' : Table) : Prop := ∀ r, (t.region r).Steady (t'.region r)

namespace Table.Steady

variable {t t' t'' : Table}

theorem refl (t : Table) : t.Steady t := fun r => .refl (t.region r)

theorem trans (first : t.Steady t') (second : t'.Steady t'') : t.Steady t'' :=
  fun r => (first r).trans (second r)

theorem setRegion (t : Table) {r : Nat} {R : Region} (steady : (t.region r).Steady R) :
    t.Steady (t.setRegion r R) := by
  intro r'
  change (t.region r').Steady (Function.update t.region r R r')
  by_cases same : r' = r
  · subst same
    rw [Function.update_self]
    exact steady
  · rw [Function.update_of_ne same]
    exact .refl _

theorem takeSpare {c : Nat} (taken : t.takeSpare c = some t') : t.Steady t' := by
  intro r
  obtain ⟨entry, cls, next, eq⟩ := takeSpare_region taken r
  rw [eq]
  exact ⟨rfl, fun _ => id⟩

theorem enqueueRun (slots : Nat → Entry) (i n : Nat) (t : Table) :
    t.Steady (Thread.enqueueRun slots i n t) := by
  induction n generalizing i t with
  | zero => exact refl t
  | succ n inductionHypothesis =>
      unfold Thread.enqueueRun
      exact (setRegion t (.enqueue _ _)).trans (inductionHypothesis (i + 1) _)

end Table.Steady

/-- Taking slots out of a region writes no word and sets no mark. -/
theorem popRegion_words (A : Arena) (grant : Nat → Bool) (region want : Nat) (R : Region)
    (shadow : Shadow) :
    (popRegion A grant region want R shadow).2.1.words = R.words ∧
      (popRegion A grant region want R shadow).2.1.marks = R.marks := by
  induction want generalizing R shadow with
  | zero => exact ⟨rfl, rfl⟩
  | succ want inductionHypothesis =>
      have pops := popSlot_pops A grant region R shadow
      unfold popRegion
      generalize popSlot A grant region R shadow = result at pops ⊢
      cases pops with
      | listed listed => exact inductionHypothesis _ _
      | nothing grant committed cause => exact ⟨rfl, rfl⟩
      | fresh grant committed metaCommitted room data => exact inductionHypothesis _ _

theorem Table.word_popped (t : Table) (grant : Nat → Bool) (region want : Nat) (shadow : Shadow)
    (x : Slot) :
    (t.setRegion region (popRegion A grant region want (t.region region) shadow).2.1).word x =
      t.word x := by
  unfold Table.word Table.setRegion
  dsimp only
  by_cases same : x.region = region
  · rw [same, Function.update_self, (popRegion_words A grant region want _ shadow).1]
  · rw [Function.update_of_ne same]

/-! ## Sweeping -/

theorem shadow_markWords (A : Arena) (h : Heap) (words : List Nat) :
    (h.markWords A words).shadow = h.shadow := by
  unfold Heap.markWords
  induction words generalizing h with
  | nil => rfl
  | cons value words ih =>
      have here : (h.markAddress A value).shadow = h.shadow := by
        rw [Heap.markAddress_eq]
        rcases h.target A value with _ | ⟨x | i⟩ <;> rfl
      rw [List.foldl_cons, ih, here]

/-- A sweep drops released huge blocks and clears their shadow. -/
structure SweptHuge (h h' : Heap) : Prop where
  dropped : ∃ (marked : List HugeBlock) (keep : HugeBlock → Bool),
    marked.map HugeBlock.unmarked = h.huge.blocks.map HugeBlock.unmarked ∧
    (∀ block, keep block = false → block.dead ≠ 0) ∧
    h'.huge.blocks.map HugeBlock.unmarked = (marked.filter keep).map HugeBlock.unmarked ∧
    h'.shadow = (marked.filter fun block => !keep block).foldl (fun shadow block =>
      shadow.clear block.base (block.base + block.size + 16)) h.shadow

theorem SweptHuge.of_same (blocks : h'.huge.blocks = h.huge.blocks) (shadow : h'.shadow = h.shadow) :
    SweptHuge h h' := by
  refine ⟨h.huge.blocks, fun _ => true, rfl, fun _ gone => absurd gone.symm Bool.false_ne_true,
    ?_, ?_⟩
  · rw [blocks, List.filter_true]
  · have none : (h.huge.blocks.filter fun _ => !true) = [] := List.filter_false _
    rw [none]
    exact shadow

theorem sweepWorld_swept (A : Arena) (h : Heap) (answer : Heap.WorldAnswer) :
    SweptHuge h (h.sweepWorld A answer).2 ∧ h.table.Older (h.sweepWorld A answer).2.table := by
  by_cases marking : h.Marks answer
  · rw [Heap.sweepWorld_of_marks marking]
    have older := Table.Older.of_sameSlots (Heap.markedBy_sameSlots A h answer)
    have blocks := (Heap.markedBy_sameButMarks A h answer).blocks
    have shadow : (h.markedBy A answer).shadow = h.shadow := by
      obtain ⟨words, eq⟩ := (h.prepared answer).markedTo_mark A answer
      unfold Heap.markedBy
      rw [eq]
      exact shadow_markWords A _ words
    refine ⟨⟨(h.markedBy A answer).huge.blocks,
      Heap.keepsHuge (answer.scanned && !answer.changed), blocks, ?_, ?_, ?_⟩,
      older.trans (.recycleRegions _ _)⟩
    · intro block gone live
      unfold Heap.keepsHuge at gone
      rw [live] at gone
      exact absurd gone Bool.noConfusion
    · change (((h.markedBy A answer).huge.blocks.filter _).map HugeBlock.unmarked).map _ = _
      rw [List.map_map]
      rfl
    · rw [← shadow]
      rfl
  · rcases (Heap.sweepWorld_of_not_marks marking).2 with same | same
    · rw [same]
      exact ⟨.of_same rfl rfl, .refl _⟩
    · rw [same]
      exact ⟨.of_same rfl rfl, .of_sameSlots (Heap.prepared_sameSlots h answer)⟩

/-! ## Every step -/

/-- What a step of a thread does to what the shadow, the huge blocks and the
committed memory depend on. -/
inductive Effect (A : Arena) (h h' : Heap) (th : Thread) (a : Answer) : Prop where
  | calm (shadow : h'.shadow = h.shadow) (huge : h'.huge = h.huge)
      (older : h.table.Older h'.table) (steady : h.table.Steady h'.table)
  | returned {c i : Nat} {k : After} (point : th.point = .giveBack c i k)
      (held : i < (th.cache.alloc c).count)
      (eq : h' =
        { h with
          table := h.table.setRegion ((th.cache.alloc c).slots i).region
            ((h.table.region ((th.cache.alloc c).slots i).region).giveBack
              ((th.cache.alloc c).slots i).slot) })
  | stored {x : Slot} {size : Nat}
      (point : (∃ w e, th.point = .storeLive w e ∧ x = e.place ∧ size = w.size) ∨
        th.point = .resizeWord x size)
      (eq : h' = { h with table := h.table.setWord x ⟨size, .live⟩ })
  | popped {w : Want} {swept first : Bool} {region : Nat}
      (point : th.point = .popRegion w swept first region)
      (eq : h' =
        { h with
          table := h.table.setRegion region
            (popRegion A a.grant region (if w.cached then A.cacheLimit w.cls else 1)
              (h.table.region region) h.shadow).2.1
          shadow := (popRegion A a.grant region (if w.cached then A.cacheLimit w.cls else 1)
            (h.table.region region) h.shadow).2.2 })
  | made {w : Want} {e : Entry} (point : th.point = .shadowLive w e)
      (eq : h' = h.shadowLive A e.place w.size (A.entry w.cls).size)
  | resized {x : Slot} {size : Nat} (point : th.point = .resizeShadow x size)
      (eq : h' = h.shadowLive A x size (h.table.slotBytes x))
  | released {x : Slot} {cached : Bool} (point : th.point = .shadowDead x cached)
      (eq : h' = h.shadowDead A x)
  | inserted {size alignment : Nat} {purpose : Purpose} {request : Heap.HugeRequest} {map : Nat}
      (point : th.point = .huge size alignment purpose)
      (asked : h.hugeRequest A size alignment = some request) (mapped : a.map = some map)
      (table : a.hugeTable = true) (unmapped : h.Unmapped A map request.mapBytes)
      (eq : h' = h.hugeInsert A size request map)
  | freed {p : Nat} (point : th.point = .release p) (found : h.hugeFree p = some h')
  | swept {k : Then} (point : th.point = .world k) (huge : SweptHuge h h')
      (older : h.table.Older h'.table)

theorem overBudget_heap (A : Arena) (h : Heap) (now : BitVec 64) (r : Reading) :
    (Thread.overBudget A h now r).1.shadow = h.shadow ∧
      (Thread.overBudget A h now r).1.huge = h.huge ∧
      (Thread.overBudget A h now r).1.table = h.table := by
  cases r with
  | budgets gained live =>
      unfold Thread.overBudget
      dsimp only
      split_ifs <;> exact ⟨rfl, rfl, rfl⟩
  | ended gained live ended =>
      unfold Thread.overBudget
      dsimp only
      split_ifs <;> exact ⟨rfl, rfl, rfl⟩
  | _ => exact ⟨rfl, rfl, rfl⟩

theorem foldLive_heap (h : Heap) (delta : Int) (past : Bool) :
    (Thread.foldLive h delta past).1.shadow = h.shadow ∧
      (Thread.foldLive h delta past).1.huge = h.huge ∧
      (Thread.foldLive h delta past).1.table = h.table := by
  unfold Thread.foldLive
  split_ifs <;> exact ⟨rfl, rfl, rfl⟩

section Step

variable {a : Answer}

/-- A step that changes neither the shadow nor either table. -/
theorem Effect.of_same (shadow : h'.shadow = h.shadow) (huge : h'.huge = h.huge)
    (table : h'.table = h.table) : Effect A h h' th a := by
  refine .calm shadow huge ?_ ?_
  · rw [table]
    exact .refl _
  · rw [table]
    exact .refl _

theorem step_effect (taken : th.step A h a = some (h', th')) : Effect A h h' th a := by
  have branch := branch_of_step taken
  generalize point : th.point = p at branch
  cases branch with
  | popRegion popped =>
      refine .popped point ?_
      rw [popped]
  | setActive => exact .calm rfl rfl (fun r => .refl _) fun r => .refl _
  | takesSpare found => exact .calm rfl rfl (.takeSpare found) (.takeSpare found)
  | charge | credit | fold =>
      obtain ⟨shadow, huge, table⟩ := foldLive_heap h _ _
      exact .of_same shadow huge table
  | storeLive => exact .stored (.inl ⟨_, _, point, rfl, rfl⟩) rfl
  | shadowLive => exact .made point rfl
  | hugeMade asked mapped unmapped table => exact .inserted point asked mapped table unmapped rfl
  | hugeFreed _ found => exact .freed point found
  | claim =>
      exact .calm rfl rfl (.setRegion _ (.setWord _ _ WordState.noConfusion WordState.noConfusion))
        (.setRegion _ (.setWord _ _ WordState.noConfusion))
  | shadowDead => exact .released point rfl
  | retire => exact .calm rfl rfl (.setRegion _ (.enqueue _ _)) (.setRegion _ (.enqueue _ _))
  | overBudget =>
      obtain ⟨shadow, huge, table⟩ := overBudget_heap A h _ _
      exact .of_same shadow huge table
  | flushRun => exact .calm rfl rfl (.enqueueRun _ _ _ _) (.enqueueRun _ _ _ _)
  | giveBack held => exact .returned point held rfl
  | world =>
      obtain ⟨huge, older⟩ := sweepWorld_swept A h a.world
      exact .swept point huge older
  | resizeShadow => exact .resized point rfl
  | resizeWord => exact .stored (.inr point) rfl
  -- only the thread's own data, the counters or the flags
  | _ => exact .of_same rfl rfl rfl

theorem stepOf_effect {s : State T} {e : Event T} (taken : s.stepOf A e = some (h', th')) :
    Effect A s.heap h' (s.thread e.thread) e.answer := by
  unfold State.stepOf at taken
  cases called : e.call with
  | none =>
      rw [called] at taken
      exact step_effect taken
  | some call =>
      rw [called] at taken
      dsimp only at taken
      split_ifs at taken
      obtain ⟨th'', -, eq⟩ := Option.map_eq_some_iff.mp taken
      obtain ⟨rfl, -⟩ := Prod.mk.inj eq
      exact .of_same rfl rfl rfl

end Step

end WeaveC.Alloc
