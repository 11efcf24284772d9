import WeaveC.Sweep.Maps

/-!
# The roots on Linux

The sweep scans the mappings that /proc/self/maps lists: a writable one from
its lowest recorded stack pointer up, whole when it has none, and below a stack
pointer only the pages that `mincore` reports; one the program cannot write
where /proc/self/pagemap says that it wrote, or where `mincore` reports a page
when pagemap cannot be read.  The runtime's own ranges are left out.
-/

namespace WeaveC.Sweep

/-- A stretch of memory passed to marking. -/
structure Span where
  low : Nat
  high : Nat
  deriving DecidableEq, Repr

/-- The word at `w` lies whole in the stretch. -/
def Span.Holds (s : Span) (w : Nat) : Prop := s.low ≤ w ∧ w + 8 ≤ s.high

instance (s : Span) (w : Nat) : Decidable (s.Holds w) := inferInstanceAs (Decidable (_ ∧ _))

/-- The word at `w` lies outside the stretch. -/
def Span.Misses (s : Span) (w : Nat) : Prop := w + 8 ≤ s.low ∨ s.high ≤ w

instance (s : Span) (w : Nat) : Decidable (s.Misses w) := inferInstanceAs (Decidable (_ ∨ _))

/-- What the kernel answers: the entries of pagemap and the bytes of `mincore`
for each page, and which of the calls succeed. -/
structure Kernel where
  page : Nat
  page_pos : 0 < page
  page_words : 8 ∣ page
  entry : Nat → Nat
  incore : Nat → Nat
  /-- `pread` of pagemap from a page on, for a number of pages, is complete. -/
  readable : Nat → Nat → Bool
  /-- `mincore` of an address and a length succeeds. -/
  residency : Nat → Nat → Bool
  residency_aligned : ∀ address bytes, residency address bytes = true → page ∣ address

/-- Bits 63, 62 and 61: present, swapped, a file's page. -/
def tracked (entry : Nat) : Bool := entry >>> 61 == 4 || (entry >>> 62) &&& 1 != 0

def Pages : Nat := 512

section Scanning

variable (K : Kernel) (internal : List Span) (pointers : List Nat) (redZone : Nat)

/-- Scans `[low, high)` but the runtime's own mappings in it. -/
def scanExcluding : List Span → Nat → Nat → List Span
  | [], low, high => if low < high then [⟨low, high⟩] else []
  | r :: ranges, low, high =>
      if low < high then
        if r.high ≤ low ∨ high ≤ r.low then scanExcluding ranges low high
        else
          (if low < r.low then [⟨low, r.low⟩] else []) ++ scanExcluding ranges r.high high
      else []

/-- The lowest stack pointer inside `[low, high)`, or 0. -/
def stackIn (low high : Nat) : Nat :=
  pointers.foldl (fun sp s => if low ≤ s ∧ s < high ∧ (sp = 0 ∨ s < sp) then s else sp) 0

/-- `sp - RedZone > low ? sp - RedZone : low`, in 64 bits. -/
def liveFrom (sp low : Nat) : Nat :=
  let below := (sp + (2 ^ 64 - redZone)) % 2 ^ 64
  if low < below then below else low

def scanStack (low high : Nat) : List Span :=
  let sp := stackIn pointers low high
  if sp = 0 then scanExcluding internal low high
  else scanExcluding internal (liveFrom redZone sp low) high

/-- The first address at or after `address` outside the runtime's own
mappings (where they are sorted). -/
def skipInternal (address : Nat) : Nat :=
  internal.foldl (fun address r => if r.low ≤ address ∧ address < r.high then r.high else address)
    address

/-- How many bytes the kernel is asked about at once. -/
def chunk (start high : Nat) : Nat :=
  if Pages * K.page < high - start then Pages * K.page else high - start

/-- The stretches of `[start, start + chunk)` to scan: those of the pages
reported, or all of it when `mincore` fails. -/
def stretches (pagemap : Bool) (start high : Nat) : List Span :=
  let bytes := chunk K start high
  let count := (bytes + K.page - 1) / K.page
  let mapped := pagemap && K.readable (start / K.page) count
  if !mapped && !K.residency start bytes then [⟨start, start + bytes⟩]
  else
    ((List.range count).filter fun i =>
        if mapped then tracked (K.entry (start / K.page + i))
        else K.incore (start / K.page + i) &&& 1 != 0).map fun i =>
      ⟨start + i * K.page, min (start + (i + 1) * K.page) high⟩

theorem le_skipInternal (address : Nat) : address ≤ skipInternal internal address := by
  unfold skipInternal
  induction internal generalizing address with
  | nil => exact Nat.le_refl address
  | cons r ranges ih =>
    rw [List.foldl_cons]
    split
    next inside => exact (Nat.le_of_lt inside.2).trans (ih r.high)
    next => exact ih address

theorem chunk_pos {start high : Nat} (below : start < high) : 0 < chunk K start high := by
  unfold chunk
  split
  · exact Nat.mul_pos (by decide) K.page_pos
  · omega

/-- The loop of `scanResident`. -/
def scanPages (pagemap : Bool) (high low : Nat) : List Span :=
  let start := skipInternal internal low
  if start < high then
    (stretches K pagemap start high).flatMap (fun s => scanExcluding internal s.low s.high) ++
      scanPages pagemap high (start + chunk K start high)
  else []
termination_by high - low
decreasing_by
  have above := le_skipInternal internal low
  have some_bytes : 0 < chunk K (skipInternal internal low) high := chunk_pos K ‹_›
  omega

/-- The pages of `[low, high)` that the kernel reports. -/
def scanResident (low high : Nat) (pagemap : Bool) : List Span :=
  scanPages K internal pagemap high (low / K.page * K.page)

/-- The body of the loop of `scanMappings`. -/
def scanMapping (m : Mapping) : List Span :=
  if m.admitted then
    let sp := stackIn pointers m.low m.high
    if !m.writable then scanResident K internal m.low m.high true
    else if sp = 0 || m.named "[stack]" then scanStack internal pointers redZone m.low m.high
    else
      let live := liveFrom redZone sp m.low
      scanResident K internal m.low live false ++ scanExcluding internal live m.high
  else []

/-- `scanMappings`, with what it passes to marking; none when the text could
not be read. -/
def scanMappings (text : List Char) : Option (List Span) :=
  if text.isEmpty then none
  else some ((readMappings text.length text).flatMap
    (scanMapping K internal pointers redZone))

end Scanning

/-! ## What a scan passes on -/

/-- Some stretch holds the word. -/
def Passed (spans : List Span) (w : Nat) : Prop := ∃ s ∈ spans, s.Holds w

theorem passed_append {spans more : List Span} {w : Nat} :
    Passed (spans ++ more) w ↔ Passed spans w ∨ Passed more w := by
  unfold Passed
  simp only [List.mem_append, or_and_right, exists_or]

theorem passed_flatMap {α : Type} {items : List α} {f : α → List Span} {w : Nat} :
    Passed (items.flatMap f) w ↔ ∃ x ∈ items, Passed (f x) w := by
  unfold Passed
  simp only [List.mem_flatMap]
  constructor
  · rintro ⟨s, ⟨x, member, mem⟩, holds⟩
    exact ⟨x, member, s, mem, holds⟩
  · rintro ⟨x, member, s, mem, holds⟩
    exact ⟨s, ⟨x, member, mem⟩, holds⟩

theorem not_passed_nil (w : Nat) : ¬Passed [] w := by
  rintro ⟨s, mem, -⟩
  cases mem

/-- Outside the runtime's own ranges a scan passes each whole word on. -/
theorem passed_scanExcluding {internal : List Span} {low high w : Nat}
    (outside : ∀ r ∈ internal, r.Misses w) :
    Passed (scanExcluding internal low high) w ↔ low ≤ w ∧ w + 8 ≤ high := by
  induction internal generalizing low with
  | nil =>
    simp only [scanExcluding]
    split
    · simp [Passed, Span.Holds]
    · refine iff_of_false (not_passed_nil w) ?_
      omega
  | cons r ranges ih =>
    have here : r.Misses w := outside r List.mem_cons_self
    have rest : ∀ r ∈ ranges, r.Misses w := fun r mem => outside r (List.mem_cons_of_mem _ mem)
    unfold Span.Misses at here
    simp only [scanExcluding]
    by_cases below : low < high
    · rw [if_pos below]
      by_cases apart : r.high ≤ low ∨ high ≤ r.low
      · rw [if_pos apart]
        exact ih rest
      · rw [if_neg apart, passed_append, ih rest]
        by_cases before : low < r.low
        · rw [if_pos before]
          simp only [Passed, List.mem_singleton, exists_eq_left, Span.Holds]
          omega
        · rw [if_neg before]
          have none := not_passed_nil w
          constructor
          · rintro (absurd_passed | ⟨above, below⟩)
            · exact absurd absurd_passed none
            · omega
          · rintro ⟨above, below⟩
            right
            omega
    · rw [if_neg below]
      refine iff_of_false (not_passed_nil w) ?_
      omega

section Scanned

variable {K : Kernel} {internal : List Span} {pointers : List Nat} {redZone : Nat}

/-- A chunk of the scan of `[low, high)` starts at `start`. -/
inductive Chunk (K : Kernel) (internal : List Span) (high : Nat) : Nat → Nat → Prop where
  | here {low : Nat} :
      skipInternal internal low < high → Chunk K internal high low (skipInternal internal low)
  | later {low start : Nat} :
      skipInternal internal low < high →
      Chunk K internal high
        (skipInternal internal low + chunk K (skipInternal internal low) high) start →
      Chunk K internal high low start

/-- The word lies whole in a stretch of a chunk. -/
def Reported (K : Kernel) (internal : List Span) (pagemap : Bool) (low high w : Nat) : Prop :=
  ∃ start, Chunk K internal high low start ∧ Passed (stretches K pagemap start high) w

theorem passed_stretches {pagemap : Bool} {start high w : Nat}
    (outside : ∀ r ∈ internal, r.Misses w) :
    Passed ((stretches K pagemap start high).flatMap
        fun s => scanExcluding internal s.low s.high) w ↔
      Passed (stretches K pagemap start high) w := by
  rw [passed_flatMap]
  simp only [passed_scanExcluding outside]
  rfl

theorem passed_scanPages {pagemap : Bool} {low high w : Nat}
    (outside : ∀ r ∈ internal, r.Misses w) :
    Passed (scanPages K internal pagemap high low) w ↔
      Reported K internal pagemap low high w := by
  fun_induction scanPages K internal pagemap high low with
  | case1 low start below ih =>
    rw [passed_append, passed_stretches outside, ih]
    constructor
    · rintro (here | ⟨next, chunked, passed⟩)
      · exact ⟨_, .here below, here⟩
      · exact ⟨next, .later below chunked, passed⟩
    · rintro ⟨next, chunked, passed⟩
      cases chunked with
      | here => exact .inl passed
      | later _ chunked => exact .inr ⟨next, chunked, passed⟩
  | case2 low start below =>
    refine iff_of_false (not_passed_nil w) ?_
    rintro ⟨next, chunked, -⟩
    cases chunked with
    | here inside => exact below inside
    | later inside => exact below inside

/-- The scan of a mapping reaches the word: from the lowest stack pointer up,
or in a stretch that the kernel reports. -/
def Mapping.Reaches (K : Kernel) (internal : List Span) (pointers : List Nat) (redZone : Nat)
    (m : Mapping) (w : Nat) : Prop :=
  let sp := stackIn pointers m.low m.high
  let live := liveFrom redZone sp m.low
  m.admitted = true ∧
    if m.writable then
      if sp = 0 then m.low ≤ w ∧ w + 8 ≤ m.high
      else
        (live ≤ w ∧ w + 8 ≤ m.high) ∨
          (m.named "[stack]" = false ∧
            Reported K internal false (m.low / K.page * K.page) live w)
    else Reported K internal true (m.low / K.page * K.page) m.high w

theorem passed_scanMapping {m : Mapping} {w : Nat} (outside : ∀ r ∈ internal, r.Misses w) :
    Passed (scanMapping K internal pointers redZone m) w ↔
      m.Reaches K internal pointers redZone w := by
  unfold scanMapping Mapping.Reaches
  cases admitted : m.admitted with
  | false => exact iff_of_false (not_passed_nil w) (fun reaches => absurd reaches.1 (by decide))
  | true =>
    simp only [if_true, true_and]
    cases m.writable with
    | false =>
      simp only [Bool.not_false, if_true, Bool.false_eq_true, if_false]
      exact passed_scanPages outside
    | true =>
      simp only [Bool.not_true, Bool.false_eq_true, if_false, if_true]
      by_cases none : stackIn pointers m.low m.high = 0
      · simp only [none, decide_true, Bool.true_or, if_true, scanStack]
        exact passed_scanExcluding outside
      · cases m.named "[stack]" with
        | true =>
          simp only [none, decide_false, Bool.false_or, if_true, if_false, scanStack,
            Bool.true_eq_false, false_and, or_false]
          exact passed_scanExcluding outside
        | false =>
          simp only [none, decide_false, Bool.or_false, Bool.false_eq_true, if_false, true_and]
          rw [passed_append, passed_scanExcluding outside, or_comm]
          exact or_congr_right (passed_scanPages outside)

theorem Line.Read.reaches {l : Line} {m : Mapping} {w : Nat} (read : l.Read m) :
    m.Reaches K internal pointers redZone w ↔
      l.mapping.Reaches K internal pointers redZone w := by
  unfold Mapping.Reaches
  rw [read.low, read.high, read.admitted, read.writable, read.named "[stack]" (by decide)]

theorem passed_scanMappings {lines : List Line} {w : Nat}
    (outside : ∀ r ∈ internal, r.Misses w) :
    (∃ spans, scanMappings K internal pointers redZone (render lines) = some spans ∧
        Passed spans w) ↔
      ∃ l ∈ lines, l.mapping.Reaches K internal pointers redZone w := by
  have read := readMappings_render lines (Nat.le_refl (render lines).length)
  have found : Passed ((readMappings (render lines).length (render lines)).flatMap
      (scanMapping K internal pointers redZone)) w ↔
      ∃ l ∈ lines, l.mapping.Reaches K internal pointers redZone w := by
    rw [passed_flatMap]
    simp only [passed_scanMapping outside]
    generalize readMappings (render lines).length (render lines) = mappings at read
    induction read with
    | nil => simp
    | cons line _ ih => simp only [List.mem_cons, exists_eq_or_imp, line.reaches, ih]
  cases lines with
  | nil => simp [render, scanMappings]
  | cons l lines =>
    rw [← found]
    have some_text : (render (l :: lines)).isEmpty = false := by
      simp [render, Line.render]
    simp only [scanMappings, some_text, Bool.false_eq_true, if_false, Option.some.injEq,
      exists_eq_left']

end Scanned

/-! ## Coverage -/

inductive PageState where
  | untouched
  | resident
  | swapped
  deriving DecidableEq, Repr

/-- The process's memory when the sweep scans it: its mappings, the state of
each page and the words the program has written, with what the kernel's answers
promise. -/
structure Memory (K : Kernel) where
  lines : List Line
  ordered : ∀ l ∈ lines, l.low.value < l.high.value
  apart : lines.Pairwise fun l l' => l.high.value ≤ l'.low.value
  aligned : ∀ l ∈ lines, K.page ∣ l.low.value ∧ K.page ∣ l.high.value
  state : Nat → PageState
  written : Nat → Prop
  written_touched : ∀ w, written w → state (w / K.page) ≠ .untouched
  incore_resident : ∀ n, state n = .resident → K.incore n &&& 1 ≠ 0
  /-- A page of a private mapping that holds what the program wrote is no
  file's. -/
  entry_resident : ∀ l ∈ lines, l.shared = false → ∀ n, l.low.value ≤ n * K.page →
    n * K.page < l.high.value → state n = .resident → K.entry n >>> 61 = 4
  entry_swapped : ∀ l ∈ lines, l.shared = false → ∀ n, l.low.value ≤ n * K.page →
    n * K.page < l.high.value → state n = .swapped → (K.entry n >>> 62) &&& 1 ≠ 0

def Line.Contains (l : Line) (address : Nat) : Prop :=
  l.low.value ≤ address ∧ address < l.high.value

instance (l : Line) (address : Nat) : Decidable (l.Contains address) :=
  inferInstanceAs (Decidable (_ ∧ _))

namespace Memory

variable {K : Kernel} (M : Memory K) (internal : List Span) (pointers : List Nat) (redZone : Nat)

/-- A word that the program has written, in a mapping the scan admits, outside
the runtime's own ranges and, in `[stack]`, not below the lowest stack pointer
less the red zone. -/
structure Root (l : Line) (w : Nat) : Prop where
  line : l ∈ M.lines
  admitted : l.mapping.admitted = true
  inside : l.low.value ≤ w ∧ w + 8 ≤ l.high.value
  word : 8 ∣ w
  written : M.written w
  outside : ∀ r ∈ internal, r.Misses w
  above : l.mapping.named "[stack]" = true → (∃ sp ∈ pointers, l.Contains sp) →
    ∃ sp ∈ pointers, l.Contains sp ∧ sp ≤ w + redZone

/-- Every root is passed to marking. -/
def Covered : Prop :=
  ∀ l w, M.Root internal pointers redZone l w →
    ∃ spans, scanMappings K internal pointers redZone (render M.lines) = some spans ∧
      Passed spans w

/-- Where only resident pages are read, the roots are on such pages; the
stack pointers and the runtime's ranges cut no word and no page of a root. -/
structure Resident : Prop where
  ends : ∀ r ∈ internal, K.page ∣ r.high
  above_zero : ∀ l ∈ M.lines, 0 < l.low.value ∧ redZone ≤ l.low.value
  unwritable : ∀ l w, M.Root internal pointers redZone l w → l.writable = false →
    (∀ first count, K.readable first count = true) ∨ M.state (w / K.page) = .resident
  below : ∀ l w, M.Root internal pointers redZone l w → l.writable = true →
    l.mapping.named "[stack]" = false →
    let sp := stackIn pointers l.low.value l.high.value
    sp ≠ 0 → w < liveFrom redZone sp l.low.value →
      w + 8 ≤ liveFrom redZone sp l.low.value ∧ M.state (w / K.page) = .resident

end Memory

section Chunks

variable {K : Kernel} {internal : List Span} {pointers : List Nat} {redZone : Nat}

theorem skipInternal_le {address w : Nat} (outside : ∀ r ∈ internal, r.Misses w)
    (below : address ≤ w) : skipInternal internal address ≤ w := by
  unfold skipInternal
  induction internal generalizing address with
  | nil => exact below
  | cons r ranges ih =>
    rw [List.foldl_cons]
    have here : r.Misses w := outside r List.mem_cons_self
    have rest : ∀ r ∈ ranges, r.Misses w := fun r mem => outside r (List.mem_cons_of_mem _ mem)
    unfold Span.Misses at here
    split
    next inside =>
      refine ih rest ?_
      omega
    next => exact ih rest below

theorem dvd_skipInternal {address : Nat} (ends : ∀ r ∈ internal, K.page ∣ r.high)
    (aligned : K.page ∣ address) : K.page ∣ skipInternal internal address := by
  unfold skipInternal
  induction internal generalizing address with
  | nil => exact aligned
  | cons r ranges ih =>
    rw [List.foldl_cons]
    have rest : ∀ r ∈ ranges, K.page ∣ r.high := fun r mem => ends r (List.mem_cons_of_mem _ mem)
    split
    next => exact ih rest (ends r List.mem_cons_self)
    next => exact ih rest aligned

/-- Where the runtime's ranges end with a page, each word lies whole in a chunk
of whole pages. -/
theorem Chunk.of_word {low high w : Nat} (ends : ∀ r ∈ internal, K.page ∣ r.high)
    (outside : ∀ r ∈ internal, r.Misses w) (word : 8 ∣ w) (aligned : K.page ∣ low)
    (above : low ≤ w) (below : w + 8 ≤ high) :
    ∃ start, Chunk K internal high low start ∧ K.page ∣ start ∧ start ≤ w ∧
      w + 8 ≤ start + chunk K start high := by
  generalize measure : high - low = n
  induction n using Nat.strong_induction_on generalizing low with
  | _ n ih =>
    have start_le : skipInternal internal low ≤ w := skipInternal_le outside above
    have start_aligned : K.page ∣ skipInternal internal low := dvd_skipInternal ends aligned
    have low_le := le_skipInternal internal low
    have start_below : skipInternal internal low < high := by omega
    have some_bytes := chunk_pos K start_below
    by_cases within : w + 8 ≤ skipInternal internal low + chunk K (skipInternal internal low) high
    · exact ⟨_, .here start_below, start_aligned, start_le, within⟩
    · -- The chunk is not the last: it is of whole pages.
      have whole : chunk K (skipInternal internal low) high = Pages * K.page := by
        unfold chunk at within ⊢
        split
        · rfl
        next last =>
          rw [if_neg last] at within
          omega
      have pages : K.page ∣ skipInternal internal low + chunk K (skipInternal internal low) high := by
        rw [whole]
        exact Nat.dvd_add start_aligned (Nat.dvd_mul_left _ _)
      have words : 8 ∣ skipInternal internal low + chunk K (skipInternal internal low) high :=
        K.page_words.trans pages
      obtain ⟨start, chunked, rest⟩ := ih _ (by omega) pages (by omega) rfl
      exact ⟨start, .later start_below chunked, rest⟩

theorem chunk_le {start high : Nat} : chunk K start high ≤ high - start := by
  unfold chunk
  split
  · omega
  · exact Nat.le_refl _

/-- The page of a word of a chunk of whole pages: its place in the chunk. -/
theorem page_in_chunk {start high w : Nat} (aligned : K.page ∣ start) (word : 8 ∣ w)
    (above : start ≤ w) (below : w + 8 ≤ start + chunk K start high) :
    ∃ i, start / K.page + i = w / K.page ∧
      i < (chunk K start high + K.page - 1) / K.page ∧
      start + i * K.page ≤ w ∧ w + 8 ≤ start + (i + 1) * K.page := by
  have positive := K.page_pos
  obtain ⟨k, rfl⟩ := aligned
  obtain ⟨into, rfl⟩ := Nat.exists_eq_add_of_le above
  have before : into / K.page * K.page ≤ into := Nat.div_mul_le_self into K.page
  have next : (into / K.page + 1) * K.page = into / K.page * K.page + K.page := Nat.add_one_mul _ _
  have after : into < into / K.page * K.page + K.page := Nat.lt_div_mul_add positive
  refine ⟨into / K.page, ?_, ?_, ?_, ?_⟩
  · rw [Nat.mul_div_cancel_left k positive, Nat.mul_add_div positive]
  · have : into / K.page + 1 ≤ (chunk K (K.page * k) high + K.page - 1) / K.page := by
      refine (Nat.le_div_iff_mul_le positive).mpr ?_
      rw [next]
      omega
    exact this
  · omega
  · obtain ⟨words, eq⟩ := K.page_words
    have whole : 8 ∣ K.page * k + (into / K.page + 1) * K.page := by
      rw [eq]
      exact Nat.dvd_add (Dvd.intro _ (Nat.mul_assoc 8 words k).symm)
        (Dvd.intro_left _ (by rw [Nat.mul_comm 8 words, Nat.mul_assoc]))
    omega

/-- A word of a chunk of whole pages is in the stretch of its page, when that
page is reported or `mincore` fails. -/
theorem passed_stretches_of_page {pagemap : Bool} {start high w : Nat} (aligned : K.page ∣ start)
    (word : 8 ∣ w) (above : start ≤ w) (below : w + 8 ≤ start + chunk K start high)
    (tracked_page : pagemap = true → tracked (K.entry (w / K.page)) = true)
    (incore_page : (pagemap = true ∧ ∀ first count, K.readable first count = true) ∨
      K.incore (w / K.page) &&& 1 ≠ 0) :
    Passed (stretches K pagemap start high) w := by
  obtain ⟨i, page, within, from_page, to_page⟩ := page_in_chunk aligned word above below
  have to_high : w + 8 ≤ high := by
    have := @chunk_le K start high
    omega
  unfold stretches
  simp only
  generalize mapped_eq : (pagemap && K.readable (start / K.page)
    ((chunk K start high + K.page - 1) / K.page)) = mapped
  have holds : (⟨start + i * K.page, min (start + (i + 1) * K.page) high⟩ : Span).Holds w :=
    ⟨from_page, le_min to_page to_high⟩
  cases mapped with
  | true =>
    obtain ⟨asked, -⟩ := Bool.and_eq_true_iff.mp mapped_eq
    simp only [Bool.not_true, Bool.false_and, Bool.false_eq_true, if_false, if_true]
    refine ⟨_, List.mem_map.mpr ⟨i, List.mem_filter.mpr ⟨List.mem_range.mpr within, ?_⟩, rfl⟩, holds⟩
    rw [page]
    exact tracked_page asked
  | false =>
    cases K.residency start (chunk K start high) with
    | false =>
      simp only [Bool.not_false, Bool.true_and, if_true]
      exact ⟨_, List.mem_singleton_self _, above, below⟩
    | true =>
      simp only [Bool.not_false, Bool.not_true, Bool.and_false, Bool.false_eq_true, if_false]
      refine ⟨_, List.mem_map.mpr ⟨i, List.mem_filter.mpr ⟨List.mem_range.mpr within, ?_⟩, rfl⟩, holds⟩
      rw [page]
      rcases incore_page with ⟨asked, readable⟩ | incore
      · rw [asked, readable] at mapped_eq
        exact absurd mapped_eq (by decide)
      · exact bne_iff_ne.mpr incore

/-- A word on a reported page is passed on. -/
theorem Reported.of_page {pagemap : Bool} {low high w : Nat}
    (ends : ∀ r ∈ internal, K.page ∣ r.high) (outside : ∀ r ∈ internal, r.Misses w)
    (word : 8 ∣ w) (above : low ≤ w) (below : w + 8 ≤ high)
    (tracked_page : pagemap = true → tracked (K.entry (w / K.page)) = true)
    (incore_page : (pagemap = true ∧ ∀ first count, K.readable first count = true) ∨
      K.incore (w / K.page) &&& 1 ≠ 0) :
    Reported K internal pagemap (low / K.page * K.page) high w := by
  have from_page : low / K.page * K.page ≤ w := (Nat.div_mul_le_self _ _).trans above
  obtain ⟨start, chunked, aligned, above, below⟩ :=
    Chunk.of_word ends outside word (Nat.dvd_mul_left _ _) from_page below
  exact ⟨start, chunked, passed_stretches_of_page aligned word above below tracked_page incore_page⟩

end Chunks

/-! ## The lowest stack pointer -/

/-- The fold of `stackIn` from a stack pointer already found. -/
theorem stackIn_foldl {low : Nat} (pointers : List Nat) (high found : Nat) (positive : 0 < low)
    (inside : found ≠ 0 → low ≤ found ∧ found < high) :
    let sp := pointers.foldl
      (fun sp s => if low ≤ s ∧ s < high ∧ (sp = 0 ∨ s < sp) then s else sp) found
    (sp ≠ 0 → low ≤ sp ∧ sp < high) ∧ (found ≠ 0 → sp ≠ 0 ∧ sp ≤ found) ∧
      ∀ s ∈ pointers, low ≤ s → s < high → sp ≠ 0 ∧ sp ≤ s := by
  induction pointers generalizing found with
  | nil =>
    refine ⟨inside, fun some => ⟨some, Nat.le_refl found⟩, ?_⟩
    intro s mem
    cases mem
  | cons s pointers ih =>
    simp only [List.foldl_cons]
    by_cases lower : low ≤ s ∧ s < high ∧ (found = 0 ∨ s < found)
    · rw [if_pos lower]
      obtain ⟨within, least, members⟩ := ih s fun _ => ⟨lower.1, lower.2.1⟩
      have nonzero : s ≠ 0 := by omega
      refine ⟨within, ?_, ?_⟩
      · intro some
        have := least nonzero
        omega
      · intro t mem above below
        rcases List.mem_cons.mp mem with rfl | mem
        · exact least nonzero
        · exact members t mem above below
    · rw [if_neg lower]
      obtain ⟨within, least, members⟩ := ih found inside
      refine ⟨within, least, ?_⟩
      intro t mem above below
      rcases List.mem_cons.mp mem with rfl | mem
      · have some : found ≠ 0 := by omega
        have := least some
        omega
      · exact members t mem above below

theorem stackIn_mem {low high : Nat} (pointers : List Nat) :
    stackIn pointers low high ≠ 0 → stackIn pointers low high ∈ pointers := by
  have member (found : Nat) :
      pointers.foldl (fun sp s => if low ≤ s ∧ s < high ∧ (sp = 0 ∨ s < sp) then s else sp) found =
          found ∨
        pointers.foldl (fun sp s => if low ≤ s ∧ s < high ∧ (sp = 0 ∨ s < sp) then s else sp) found ∈
          pointers := by
    induction pointers generalizing found with
    | nil => exact .inl rfl
    | cons s pointers ih =>
      simp only [List.foldl_cons, List.mem_cons]
      split
      next =>
        rcases ih s with same | mem
        · exact .inr (.inl same)
        · exact .inr (.inr mem)
      next =>
        rcases ih found with same | mem
        · exact .inl same
        · exact .inr (.inr mem)
  intro some
  exact (member 0).resolve_left some

/-- A stack pointer in a mapping not at address 0 is found, and none lower is
missed. -/
theorem stackIn_spec {low high : Nat} (pointers : List Nat) (positive : 0 < low) :
    (stackIn pointers low high ≠ 0 →
        low ≤ stackIn pointers low high ∧ stackIn pointers low high < high) ∧
      ∀ s ∈ pointers, low ≤ s → s < high →
        stackIn pointers low high ≠ 0 ∧ stackIn pointers low high ≤ s := by
  have := stackIn_foldl pointers high 0 positive fun some => absurd rfl some
  exact ⟨this.1, this.2.2⟩

/-- Away from address 0 the scan starts at the red zone's end or at the
mapping's start. -/
theorem liveFrom_le {redZone sp low w : Nat} (above : redZone ≤ low) (inside : low ≤ sp)
    (small : sp < 2 ^ 64) (from_low : low ≤ w) (from_sp : sp ≤ w + redZone) :
    liveFrom redZone sp low ≤ w := by
  have wrap : (sp + (2 ^ 64 - redZone)) % 2 ^ 64 = sp - redZone := by
    have : sp + (2 ^ 64 - redZone) = sp - redZone + 2 ^ 64 := by omega
    rw [this, Nat.add_mod_right]
    exact Nat.mod_eq_of_lt (by omega)
  unfold liveFrom
  simp only [wrap]
  split
  · omega
  · exact from_low

namespace Memory

variable {K : Kernel} (M : Memory K) (internal : List Span) (pointers : List Nat) (redZone : Nat)

/-- The page of a root that the program cannot write is tracked by pagemap. -/
theorem tracked_of_root {l : Line} {w : Nat} (root : M.Root internal pointers redZone l w)
    (unwritable : l.writable = false) : tracked (K.entry (w / K.page)) = true := by
  have notShared : l.shared = false := by
    have admitted := root.admitted
    unfold Mapping.admitted Line.mapping at admitted
    rw [unwritable] at admitted
    cases shared : l.shared with
    | false => rfl
    | true => simp [shared] at admitted
  obtain ⟨low_aligned, -⟩ := M.aligned l root.line
  have from_low : l.low.value ≤ w / K.page * K.page := by
    obtain ⟨k, eq⟩ := low_aligned
    rw [eq, Nat.mul_comm K.page k]
    refine Nat.mul_le_mul_right _ ((Nat.le_div_iff_mul_le K.page_pos).mpr ?_)
    rw [Nat.mul_comm, ← eq]
    exact root.inside.1
  have to_high : w / K.page * K.page < l.high.value := by
    have := Nat.div_mul_le_self w K.page
    have := root.inside.2
    omega
  unfold tracked
  cases state : M.state (w / K.page) with
  | untouched => exact absurd state (M.written_touched w root.written)
  | resident =>
    rw [M.entry_resident l root.line notShared _ from_low to_high state]
    rfl
  | swapped =>
    have := M.entry_swapped l root.line notShared _ from_low to_high state
    rw [bne_iff_ne.mpr this, Bool.or_true]

/-- Where only resident pages are read and the roots are on such pages, the
scan of its own mapping reaches each root. -/
theorem reaches_of_resident (resident : M.Resident internal pointers redZone) {l : Line} {w : Nat}
    (root : M.Root internal pointers redZone l w) :
    l.mapping.Reaches K internal pointers redZone w := by
  obtain ⟨from_low, to_high⟩ := root.inside
  obtain ⟨positive, above_zone⟩ := resident.above_zero l root.line
  have on_page (on : M.state (w / K.page) = .resident) : K.incore (w / K.page) &&& 1 ≠ 0 :=
    M.incore_resident _ on
  refine ⟨root.admitted, ?_⟩
  cases writable : l.writable with
  | false =>
    simp only [Line.mapping, writable, Bool.false_eq_true, if_false]
    refine Reported.of_page resident.ends root.outside root.word from_low to_high
      (fun _ => M.tracked_of_root internal pointers redZone root writable) ?_
    rcases resident.unwritable l w root writable with readable | on
    · exact .inl ⟨rfl, readable⟩
    · exact .inr (on_page on)
  | true =>
    simp only [Line.mapping, writable, if_true]
    obtain ⟨within, members⟩ := @stackIn_spec _ l.high.value pointers positive
    split
    next => exact ⟨from_low, to_high⟩
    next some =>
      by_cases above : liveFrom redZone (stackIn pointers l.low.value l.high.value) l.low.value ≤ w
      · exact .inl ⟨above, to_high⟩
      · right
        cases named : l.mapping.named "[stack]" with
        | false =>
          obtain ⟨to_live, on⟩ :=
            resident.below l w root writable named some (Nat.lt_of_not_le above)
          refine ⟨named, Reported.of_page resident.ends root.outside root.word from_low to_live
            (fun no => absurd no (by decide)) (.inr (on_page on))⟩
        | true =>
          -- In `[stack]` a root is not below the lowest stack pointer's red zone.
          obtain ⟨lowest_from, lowest_to⟩ := within some
          obtain ⟨sp, mem, ⟨sp_from, sp_to⟩, sp_le⟩ :=
            root.above named ⟨_, stackIn_mem pointers some, lowest_from, lowest_to⟩
          have lowest_le := (members sp mem sp_from sp_to).2
          have small : stackIn pointers l.low.value l.high.value < 2 ^ 64 :=
            lowest_to.trans l.high.fits
          refine absurd (liveFrom_le above_zone lowest_from small from_low ?_) above
          omega

/-- The roots are covered exactly when each is reached by the scan of a mapping;
in particular where only resident pages are read and the roots are on such
pages. -/
theorem root_coverage :
    (M.Covered internal pointers redZone ↔
      ∀ l w, M.Root internal pointers redZone l w →
        ∃ l' ∈ M.lines, l'.mapping.Reaches K internal pointers redZone w) ∧
    (M.Resident internal pointers redZone → M.Covered internal pointers redZone) := by
  have exact_roots : M.Covered internal pointers redZone ↔
      ∀ l w, M.Root internal pointers redZone l w →
        ∃ l' ∈ M.lines, l'.mapping.Reaches K internal pointers redZone w := by
    constructor
    · intro covered l w root
      exact (passed_scanMappings root.outside).mp (covered l w root)
    · intro reached l w root
      exact (passed_scanMappings root.outside).mpr (reached l w root)
  refine ⟨exact_roots, ?_⟩
  intro resident
  refine exact_roots.mpr ?_
  intro l w root
  exact ⟨l, root.line, M.reaches_of_resident internal pointers redZone resident root⟩

end Memory

/-! ## A root on a swapped page -/

/-- A mapping of two pages that is not `[stack]`, as a pool of stacks has it. -/
def poolLine : Line where
  low := ⟨['1', '0', '0', '0', '0'], by decide, List.all_eq_true.mp rfl, by decide⟩
  high := ⟨['1', '2', '0', '0', '0'], by decide, List.all_eq_true.mp rfl, by decide⟩
  readable := true
  writable := true
  executable := false
  shared := false
  rest := ['0', ' ', '0', '0', ':', '0', '0', ' ', '0', ' ']
  one_line := by decide
  no_nul := by decide

/-- Pagemap cannot be read; `mincore` reports the second page of the pool. -/
def poolKernel : Kernel where
  page := 4096
  page_pos := Nat.zero_lt_succ 4095
  page_words := ⟨512, rfl⟩
  entry n := if n = 0x11 then 0x8000000000000000 else 0x4000000000000000
  incore n := if n = 0x11 then 1 else 0
  readable _ _ := false
  residency address _ := decide (address % 4096 = 0)
  residency_aligned _ _ succeeds := Nat.dvd_of_mod_eq_zero (of_decide_eq_true succeeds)

def poolState (n : Nat) : PageState :=
  if n = 0x11 then .resident else if n = 0x10 then .swapped else .untouched

theorem poolState_resident {n : Nat} (on : poolState n = .resident) : n = 0x11 := by
  unfold poolState at on
  split_ifs at on with second
  exact second

theorem poolState_swapped {n : Nat} (on : poolState n = .swapped) : n = 0x10 := by
  unfold poolState at on
  split_ifs at on with second first
  exact first

/-- The last word of the pool's first page is written, and the page is swapped
out. -/
def poolMemory : Memory poolKernel where
  lines := [poolLine]
  ordered := by decide
  apart := by decide
  aligned := by decide
  state := poolState
  written w := w = 0x10ff8
  written_touched := by
    rintro w rfl
    decide
  incore_resident n on := by
    obtain rfl := poolState_resident on
    decide
  entry_resident _ _ _ n _ _ on := by
    obtain rfl := poolState_resident on
    decide
  entry_swapped _ _ _ n _ _ on := by
    obtain rfl := poolState_swapped on
    decide

/-- A stack pointer in the pool's second page: the root on the swapped page
below it is missed. -/
theorem root_uncovered : ¬poolMemory.Covered [] [0x11800] 128 := by
  intro covered
  have root : poolMemory.Root [] [0x11800] 128 poolLine 0x10ff8 := by
    refine ⟨List.mem_singleton_self _, by decide, by decide, by decide, rfl, ?_, ?_⟩
    · intro r mem
      cases mem
    · intro named
      exact absurd named (by decide)
  have outside : ∀ r ∈ ([] : List Span), r.Misses 0x10ff8 := by decide
  obtain ⟨l, mem, -, reaches⟩ := (passed_scanMappings outside).mp (covered poolLine 0x10ff8 root)
  obtain rfl := List.mem_singleton.mp mem
  rcases reaches with above | ⟨-, start, chunked, passed⟩
  · exact absurd above (by decide)
  · cases chunked with
    | here => exact absurd passed (by unfold Passed; decide)
    | later _ chunked =>
      cases chunked with
      | here below => exact absurd below (by decide)
      | later below => exact absurd below (by decide)

end WeaveC.Sweep
