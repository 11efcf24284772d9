import WeaveC.Sweep.Work
import WeaveC.Sweep.Internal

/-!
# Scanning around the runtime's own ranges

The table of internal ranges is sorted in place, and the walks over it carry a
moving lower end.  What `scanExcluding` passes on are the gaps of the interval:
its maximal stretches that no range meets.  A gap is marked at once, or listed in
chunks while a parallel sweep collects its ranges; of each piece the whole words
are marked.
-/

namespace WeaveC.Sweep

/-! ## The code -/

/-- The inner loop of `sortInternal`: the ranges before `r`, the last first, with
`r` moved to its place among them. -/
def moveDown (r : Span) : List Span → List Span
  | [] => [r]
  | q :: front => if r.low < q.low then q :: moveDown r front else r :: q :: front

/-- `sortInternal`; the ranges sorted so far are kept from the last to the first. -/
def sortInternal (table : List Span) : List Span :=
  (table.foldl (fun front r => moveDown r front) []).reverse

/-- The chunks of a range, as `markRange` lists them. -/
def chunks (low high : Nat) : List Span :=
  if MarkChunk < high - low then ⟨low, low + MarkChunk⟩ :: chunks (low + MarkChunk) high
  else if low < high then [⟨low, high⟩]
  else []
termination_by high - low
decreasing_by
  unfold MarkChunk at *
  omega

/-- The pieces whose words `markRange` marks, now or from the list. -/
def pieces (collecting : Bool) (s : Span) : List Span :=
  if collecting then chunks s.low s.high else [s]

/-- The addresses of the words that `weavecRtMarkWords` reads: from `low` rounded
up, in 64 bits, to `high` rounded down. -/
def markedWords (s : Span) : List Nat :=
  let word := (s.low + 7) % 0x10000000000000000 / 8 * 8
  let limit := s.high / 8 * 8
  (List.range ((limit - word) / 8)).map fun i => word + 8 * i

/-- The words that a scan of `[low, high)` marks from. -/
def scannedAround (collecting : Bool) (table : List Span) (low high : Nat) : List Nat :=
  (scanExcluding (sortInternal table) low high).flatMap fun gap =>
    (pieces collecting gap).flatMap markedWords

/-! ## Sorting -/

/-- The place of a range behind those of its start, from the front. -/
def insertAfter (r : Span) : List Span → List Span
  | [] => [r]
  | q :: rest => if r.low < q.low then r :: q :: rest else q :: insertAfter r rest

theorem insertAfter_append (r : Span) {front : List Span} (q : Span) (before : ¬r.low < q.low)
    (sorted : (front ++ [q]).Pairwise fun r q => r.low ≤ q.low) :
    insertAfter r (front ++ [q]) = front ++ [q, r] := by
  induction front with
  | nil =>
      change insertAfter r [q] = [q, r]
      unfold insertAfter
      rw [if_neg before]
      rfl
  | cons p front inductionHypothesis =>
      obtain ⟨first, rest⟩ := List.pairwise_cons.mp sorted
      have least := first q (List.mem_append_right front List.mem_cons_self)
      rw [List.cons_append, insertAfter, if_neg (by omega), inductionHypothesis rest]
      rfl

theorem insertAfter_append_of_lt (r : Span) {front : List Span} (q : Span) (after : r.low < q.low) :
    insertAfter r (front ++ [q]) = insertAfter r front ++ [q] := by
  induction front with
  | nil =>
      change insertAfter r [q] = [r, q]
      unfold insertAfter
      rw [if_pos after]
  | cons p front inductionHypothesis =>
      rw [List.cons_append, insertAfter, insertAfter, inductionHypothesis]
      split_ifs <;> rfl

/-- The loop from the back finds the same place. -/
theorem reverse_moveDown (r : Span) {front : List Span}
    (sorted : front.reverse.Pairwise fun r q => r.low ≤ q.low) :
    (moveDown r front).reverse = insertAfter r front.reverse := by
  induction front with
  | nil => rfl
  | cons q front inductionHypothesis =>
      rw [List.reverse_cons] at sorted ⊢
      unfold moveDown
      by_cases after : r.low < q.low
      · rw [if_pos after, List.reverse_cons, insertAfter_append_of_lt r q after,
          inductionHypothesis (List.pairwise_append.mp sorted).1]
      · rw [if_neg after, insertAfter_append r q after sorted, List.reverse_cons,
          List.reverse_cons, List.append_assoc]
        rfl

theorem orderedInsert_insertAfter (a r : Span) (table : List Span) :
    (insertAfter r table).orderedInsert (fun r q => r.low ≤ q.low) a =
      insertAfter r (table.orderedInsert (fun r q => r.low ≤ q.low) a) := by
  induction table with
  | nil =>
      unfold insertAfter
      simp only [List.orderedInsert_cons, List.orderedInsert_nil, insertAfter]
      split_ifs <;> first | rfl | omega
  | cons q table inductionHypothesis =>
      simp only [insertAfter, List.orderedInsert_cons]
      by_cases after : r.low < q.low
      · rw [if_pos after]
        simp only [List.orderedInsert_cons]
        split_ifs <;> simp only [insertAfter] <;> split_ifs <;> first | rfl | omega
      · rw [if_neg after]
        simp only [List.orderedInsert_cons, inductionHypothesis]
        split_ifs <;> simp only [insertAfter] <;> split_ifs <;> first | rfl | omega

theorem sort_append (table : List Span) (r : Span) :
    Internal.sort (table ++ [r]) = insertAfter r (Internal.sort table) := by
  unfold Internal.sort
  induction table with
  | nil => rfl
  | cons a table inductionHypothesis =>
      rw [List.cons_append, List.insertionSort_cons, List.insertionSort_cons, inductionHypothesis]
      exact orderedInsert_insertAfter a r _

theorem sort_sorted (table : List Span) :
    (Internal.sort table).Pairwise fun r q => r.low ≤ q.low := by
  have total : Std.Total fun r q : Span => r.low ≤ q.low := ⟨fun r q => Nat.le_total _ _⟩
  have trans : IsTrans Span fun r q => r.low ≤ q.low := ⟨fun _ _ _ => Nat.le_trans⟩
  exact List.pairwise_insertionSort _ table

/-- The loops of `sortInternal` sort as the insertion of one range after another. -/
theorem sortInternal_eq (table : List Span) : sortInternal table = Internal.sort table := by
  unfold sortInternal
  induction table using List.reverseRecOn with
  | nil => rfl
  | append_singleton table r inductionHypothesis =>
      rw [List.foldl_append, List.foldl_cons, List.foldl_nil, reverse_moveDown,
        inductionHypothesis, sort_append]
      rw [inductionHypothesis]
      exact sort_sorted table

/-! ## Gaps -/

/-- A maximal stretch of `[low, high)` that meets no range of the table. -/
structure Gap (table : List Span) (low high : Nat) (s : Span) : Prop where
  above : low ≤ s.low
  some_bytes : s.low < s.high
  below : s.high ≤ high
  apart : ∀ r ∈ table, r.high ≤ s.low ∨ s.high ≤ r.low
  starts : s.low = low ∨ ∃ r ∈ table, r.high = s.low
  ends : s.high = high ∨ ∃ r ∈ table, r.low = s.high

section Gaps

variable {table : List Span} {low high : Nat} {s : Span}

theorem Gap.perm {table' : List Span} (perm : table.Perm table') :
    Gap table low high s ↔ Gap table' low high s := by
  have mem (r : Span) := perm.mem_iff (a := r)
  constructor
  · rintro ⟨above, some_bytes, below, apart, starts, ends⟩
    simp only [mem] at apart starts ends
    exact ⟨above, some_bytes, below, apart, starts, ends⟩
  · rintro ⟨above, some_bytes, below, apart, starts, ends⟩
    simp only [← mem] at apart starts ends
    exact ⟨above, some_bytes, below, apart, starts, ends⟩

/-- A range that lies beside the interval makes no gap. -/
theorem gap_cons_of_beside {r : Span} (bytes : r.low < r.high)
    (beside : r.high ≤ low ∨ high ≤ r.low) :
    Gap (r :: table) low high s ↔ Gap table low high s := by
  constructor
  · rintro ⟨above, some_bytes, below, apart, starts, ends⟩
    refine ⟨above, some_bytes, below, fun q mem => apart q (List.mem_cons_of_mem r mem), ?_, ?_⟩
    · rcases starts with first | ⟨q, mem, eq⟩
      · exact .inl first
      · rcases List.mem_cons.mp mem with rfl | mem
        · left
          omega
        · exact .inr ⟨q, mem, eq⟩
    · rcases ends with last | ⟨q, mem, eq⟩
      · exact .inl last
      · rcases List.mem_cons.mp mem with rfl | mem
        · left
          omega
        · exact .inr ⟨q, mem, eq⟩
  · rintro ⟨above, some_bytes, below, apart, starts, ends⟩
    have here : r.high ≤ s.low ∨ s.high ≤ r.low :=
      beside.imp (fun before => before.trans above) fun behind => below.trans behind
    refine ⟨above, some_bytes, below, List.forall_mem_cons.mpr ⟨here, apart⟩, ?_, ?_⟩
    · exact starts.imp_right fun ⟨q, mem, eq⟩ => ⟨q, List.mem_cons_of_mem r mem, eq⟩
    · exact ends.imp_right fun ⟨q, mem, eq⟩ => ⟨q, List.mem_cons_of_mem r mem, eq⟩

/-- A range inside the interval, no later one starting before it: the stretch up
to it is a gap, and the others lie behind it. -/
theorem gap_cons {r : Span} (first : ∀ q ∈ table, r.low ≤ q.low)
    (bytes : ∀ q ∈ r :: table, q.low < q.high) (behind : low < r.high) (before : r.low < high) :
    Gap (r :: table) low high s ↔
      (low < r.low ∧ s = ⟨low, r.low⟩) ∨ Gap table r.high high s := by
  have bytes_r := bytes r List.mem_cons_self
  constructor
  · rintro ⟨above, some_bytes, below, apart, starts, ends⟩
    have rest (q : Span) (mem : q ∈ table) := apart q (List.mem_cons_of_mem r mem)
    rcases apart r List.mem_cons_self with past | ahead
    · right
      refine ⟨past, some_bytes, below, rest, ?_, ?_⟩
      · rcases starts with start | ⟨q, mem, eq⟩
        · left
          omega
        · rcases List.mem_cons.mp mem with rfl | mem
          · exact .inl eq.symm
          · exact .inr ⟨q, mem, eq⟩
      · rcases ends with last | ⟨q, mem, eq⟩
        · exact .inl last
        · rcases List.mem_cons.mp mem with rfl | mem
          · left
            omega
          · exact .inr ⟨q, mem, eq⟩
    · left
      have start : s.low = low := by
        rcases starts with start | ⟨q, mem, eq⟩
        · exact start
        · have bytes_q := bytes q mem
          rcases List.mem_cons.mp mem with rfl | mem
          · omega
          · have least := first q mem
            omega
      have last : s.high = r.low := by
        rcases ends with last | ⟨q, mem, eq⟩
        · omega
        · rcases List.mem_cons.mp mem with rfl | mem
          · exact eq.symm
          · have least := first q mem
            omega
      refine ⟨by omega, ?_⟩
      rw [← start, ← last]
  · rintro (⟨room, rfl⟩ | ⟨above, some_bytes, below, apart, starts, ends⟩)
    · refine ⟨Nat.le_refl _, room, Nat.le_of_lt before, ?_, .inl rfl, .inr ⟨r, ?_, rfl⟩⟩
      · intro q mem
        right
        rcases List.mem_cons.mp mem with rfl | mem
        · exact Nat.le_refl _
        · exact first q mem
      · exact List.mem_cons_self
    · refine ⟨(Nat.le_of_lt behind).trans above, some_bytes, below,
        List.forall_mem_cons.mpr ⟨.inl above, apart⟩, ?_, ?_⟩
      · right
        rcases starts with start | ⟨q, mem, eq⟩
        · exact ⟨r, List.mem_cons_self, start.symm⟩
        · exact ⟨q, List.mem_cons_of_mem r mem, eq⟩
      · exact ends.imp_right fun ⟨q, mem, eq⟩ => ⟨q, List.mem_cons_of_mem r mem, eq⟩

/-- Around sorted ranges the scan passes on the gaps. -/
theorem mem_scanExcluding (sorted : table.Pairwise fun r q => r.low ≤ q.low)
    (bytes : ∀ r ∈ table, r.low < r.high) :
    s ∈ scanExcluding table low high ↔ Gap table low high s := by
  induction table generalizing low with
  | nil =>
      unfold scanExcluding
      split_ifs with room
      · rw [List.mem_singleton]
        constructor
        · rintro rfl
          exact ⟨Nat.le_refl _, room, Nat.le_refl _, fun _ mem => absurd mem List.not_mem_nil,
            .inl rfl, .inl rfl⟩
        · rintro ⟨-, -, -, -, starts, ends⟩
          obtain ⟨start, last⟩ : s.low = low ∧ s.high = high := by simpa using And.intro starts ends
          rw [← start, ← last]
      · refine iff_of_false List.not_mem_nil fun gap => ?_
        have := gap.above
        have := gap.some_bytes
        have := gap.below
        omega
  | cons r table inductionHypothesis =>
      obtain ⟨first, rest⟩ := List.pairwise_cons.mp sorted
      have bytes_r := bytes r List.mem_cons_self
      have bytes_rest (q : Span) (mem : q ∈ table) := bytes q (List.mem_cons_of_mem r mem)
      unfold scanExcluding
      by_cases room : low < high
      · rw [if_pos room]
        by_cases beside : r.high ≤ low ∨ high ≤ r.low
        · rw [if_pos beside, inductionHypothesis rest bytes_rest, gap_cons_of_beside bytes_r beside]
        · rw [if_neg beside, List.mem_append, inductionHypothesis rest bytes_rest,
            gap_cons first bytes (by omega) (by omega)]
          refine or_congr_left ?_
          split_ifs with before
          · rw [List.mem_singleton, and_iff_right before]
          · exact iff_of_false List.not_mem_nil fun here => before here.1
      · rw [if_neg room]
        refine iff_of_false List.not_mem_nil fun gap => ?_
        have := gap.above
        have := gap.some_bytes
        have := gap.below
        omega

/-- An address lies in one gap at most. -/
theorem Gap.unique {q : Span} (bytes : ∀ r ∈ table, r.low < r.high) (gap : Gap table low high s)
    (gap' : Gap table low high q) {a : Nat} (here : s.low ≤ a ∧ a < s.high)
    (here' : q.low ≤ a ∧ a < q.high) : q = s := by
  have starts : q.low = s.low := by
    rcases Nat.lt_trichotomy q.low s.low with less | same | more
    · rcases gap.starts with start | ⟨r, mem, eq⟩
      · have := gap'.above
        omega
      · have := bytes r mem
        have := gap'.apart r mem
        omega
    · exact same
    · rcases gap'.starts with start | ⟨r, mem, eq⟩
      · have := gap.above
        omega
      · have := bytes r mem
        have := gap.apart r mem
        omega
  have ends : q.high = s.high := by
    rcases Nat.lt_trichotomy q.high s.high with less | same | more
    · rcases gap'.ends with last | ⟨r, mem, eq⟩
      · have := gap.below
        omega
      · have := bytes r mem
        have := gap.apart r mem
        omega
    · exact same
    · rcases gap.ends with last | ⟨r, mem, eq⟩
      · have := gap'.below
        omega
      · have := bytes r mem
        have := gap'.apart r mem
        omega
  calc q = ⟨q.low, q.high⟩ := rfl
    _ = s := by rw [starts, ends]

end Gaps

/-! ## Pieces and words -/

theorem markChunk_eq : MarkChunk = 4194304 := by decide

section Pieces

variable {low high w : Nat} {s : Span} {collecting : Bool}

theorem chunk_bounds {c : Span} (mem : c ∈ chunks low high) :
    low ≤ c.low ∧ c.low < c.high ∧ c.high ≤ high := by
  fun_induction chunks low high with
  | case1 low more inductionHypothesis =>
      rcases List.mem_cons.mp mem with rfl | mem
      · unfold MarkChunk at more ⊢
        dsimp only
        omega
      · have rest := inductionHypothesis mem
        omega
  | case2 low more some =>
      obtain rfl := List.mem_singleton.mp mem
      exact ⟨Nat.le_refl _, some, Nat.le_refl _⟩
  | case3 => cases mem

/-- A chunk holds each word that no end of a chunk goes through. -/
theorem held_chunks : (∃ c ∈ chunks low high, c.Holds w) ↔
    low ≤ w ∧ w + 8 ≤ high ∧ (w - low) / MarkChunk = (w + 7 - low) / MarkChunk := by
  fun_induction chunks low high with
  | case1 low more inductionHypothesis =>
      simp only [List.mem_cons, exists_eq_or_imp]
      rw [inductionHypothesis]
      unfold Span.Holds
      simp only [markChunk_eq] at more ⊢
      omega
  | case2 low more some =>
      simp only [List.mem_singleton, exists_eq_left, Span.Holds]
      simp only [markChunk_eq] at more ⊢
      omega
  | case3 low more none =>
      refine iff_of_false ?_ ?_
      · rintro ⟨c, mem, _⟩
        cases mem
      · omega

theorem late_chunks {bound : Nat} : (∃ c ∈ chunks low high, bound ≤ c.low) ↔
    low < high ∧ bound ≤ low + (high - low - 1) / MarkChunk * MarkChunk := by
  fun_induction chunks low high with
  | case1 low more inductionHypothesis =>
      simp only [List.mem_cons, exists_eq_or_imp]
      rw [inductionHypothesis]
      simp only [markChunk_eq] at more ⊢
      omega
  | case2 low more some =>
      simp only [List.mem_singleton, exists_eq_left]
      simp only [markChunk_eq] at more ⊢
      omega
  | case3 low more none =>
      refine iff_of_false ?_ ?_
      · rintro ⟨c, mem, _⟩
        cases mem
      · omega

theorem piece_bounds {c : Span} (bytes : s.low < s.high) (mem : c ∈ pieces collecting s) :
    s.low ≤ c.low ∧ c.low < c.high ∧ c.high ≤ s.high := by
  unfold pieces at mem
  split_ifs at mem
  · exact chunk_bounds mem
  · obtain rfl := List.mem_singleton.mp mem
    exact ⟨Nat.le_refl _, bytes, Nat.le_refl _⟩

theorem held_pieces : (∃ c ∈ pieces collecting s, c.Holds w) ↔ s.Holds w ∧
    (collecting = true → (w - s.low) / MarkChunk = (w + 7 - s.low) / MarkChunk) := by
  cases collecting with
  | true =>
      refine held_chunks.trans ?_
      unfold Span.Holds
      rw [and_assoc, eq_self_iff_true, true_imp_iff]
  | false =>
      unfold pieces
      simp [Span.Holds]

/-- Where the last piece of a gap starts. -/
def lastPiece (collecting : Bool) (s : Span) : Nat :=
  if collecting then s.low + (s.high - s.low - 1) / MarkChunk * MarkChunk else s.low

theorem late_pieces {bound : Nat} (bytes : s.low < s.high) :
    (∃ c ∈ pieces collecting s, bound ≤ c.low) ↔ bound ≤ lastPiece collecting s := by
  cases collecting with
  | true => exact late_chunks.trans (and_iff_right bytes)
  | false =>
      unfold pieces lastPiece
      simp

/-- The end of a gap's first chunk goes through a word of it. -/
def Cut (s : Span) : Prop := s.low % 8 ≠ 0 ∧ (s.low + MarkChunk) / 8 * 8 + 8 ≤ s.high

instance (s : Span) : Decidable (Cut s) := inferInstanceAs (Decidable (_ ∧ _))

theorem cut_iff : Cut s ↔
    ∃ w, 8 ∣ w ∧ s.Holds w ∧ (w - s.low) / MarkChunk ≠ (w + 7 - s.low) / MarkChunk := by
  unfold Cut Span.Holds
  rw [markChunk_eq]
  constructor
  · rintro ⟨unaligned, room⟩
    refine ⟨(s.low + 4194304) / 8 * 8, Nat.dvd_mul_left 8 _, ?_, ?_⟩
    · omega
    · omega
  · rintro ⟨w, aligned, holds, cut⟩
    omega

theorem mem_markedWords (below : s.low + 7 < 0x10000000000000000) :
    w ∈ markedWords s ↔ 8 ∣ w ∧ s.Holds w := by
  unfold markedWords Span.Holds
  rw [Nat.mod_eq_of_lt below]
  simp only [List.mem_map, List.mem_range]
  constructor
  · rintro ⟨i, room, rfl⟩
    omega
  · rintro ⟨aligned, above, inside⟩
    refine ⟨(w - (s.low + 7) / 8 * 8) / 8, ?_, ?_⟩
    · omega
    · omega

/-- A start in the last seven bytes is rounded up to 0. -/
theorem mem_markedWords_wrapped (late : 0x10000000000000000 ≤ s.low + 7)
    (short : s.low < 0x10000000000000000) : w ∈ markedWords s ↔ 8 ∣ w ∧ w + 8 ≤ s.high := by
  unfold markedWords
  have wrapped : (s.low + 7) % 0x10000000000000000 / 8 * 8 = 0 := by omega
  simp only [wrapped, List.mem_map, List.mem_range]
  constructor
  · rintro ⟨i, room, rfl⟩
    omega
  · rintro ⟨aligned, inside⟩
    refine ⟨w / 8, ?_, ?_⟩
    · omega
    · omega

end Pieces

/-! ## Skipping -/

section Skipping

variable {table : List Span} {address a : Nat}

theorem skipInternal_of_lt (above : ∀ r ∈ table, address < r.low) :
    skipInternal table address = address := by
  unfold skipInternal
  induction table with
  | nil => rfl
  | cons r table inductionHypothesis =>
      have here := above r List.mem_cons_self
      rw [List.foldl_cons, if_neg (by omega)]
      exact inductionHypothesis fun q mem => above q (List.mem_cons_of_mem r mem)

theorem skipInternal_cons (r : Span) : skipInternal (r :: table) address =
    skipInternal table (if r.low ≤ address ∧ address < r.high then r.high else address) := rfl

/-- What is skipped lies in some range. -/
theorem skipInternal_skips (above : address ≤ a) (below : a < skipInternal table address) :
    ∃ r ∈ table, r.low ≤ a ∧ a < r.high := by
  induction table generalizing address with
  | nil => exact absurd below (Nat.not_lt_of_le above)
  | cons r table inductionHypothesis =>
      rw [skipInternal_cons] at below
      by_cases here : r.low ≤ a ∧ a < r.high
      · exact ⟨r, List.mem_cons_self, here⟩
      · have rest : ∃ q ∈ table, q.low ≤ a ∧ a < q.high := by
          split_ifs at below with inside
          · exact inductionHypothesis (by omega) below
          · exact inductionHypothesis above below
        obtain ⟨q, mem, inside⟩ := rest
        exact ⟨q, List.mem_cons_of_mem r mem, inside⟩

/-- Where the ranges are sorted, none holds the address found: one that is passed
by before the address comes to it starts behind every range that moves it. -/
theorem skipInternal_outside (sorted : table.Pairwise fun r q => r.low ≤ q.low) :
    ∀ r ∈ table, ¬(r.low ≤ skipInternal table address ∧ skipInternal table address < r.high) := by
  induction table generalizing address with
  | nil => exact fun _ mem => absurd mem List.not_mem_nil
  | cons r table inductionHypothesis =>
      obtain ⟨first, rest⟩ := List.pairwise_cons.mp sorted
      rw [skipInternal_cons]
      refine List.forall_mem_cons.mpr ⟨?_, inductionHypothesis rest⟩
      rintro ⟨above, below⟩
      split_ifs at above below with inside
      · have moved := le_skipInternal table r.high
        omega
      · have moved := le_skipInternal table address
        have before : address < r.low := by omega
        rw [skipInternal_of_lt fun q mem => Nat.lt_of_lt_of_le before (first q mem)] at above
        omega

end Skipping

/-! ## What is marked -/

section Marked

variable {table : List Span} {low high w : Nat} {collecting : Bool}

theorem mem_sortInternal {r : Span} : r ∈ sortInternal table ↔ r ∈ table := by
  rw [sortInternal_eq]
  exact List.mem_insertionSort _

theorem sortInternal_sorted : (sortInternal table).Pairwise fun r q => r.low ≤ q.low := by
  rw [sortInternal_eq]
  exact sort_sorted table

theorem mem_scannedAround (bytes : ∀ r ∈ table, r.low < r.high) :
    w ∈ scannedAround collecting table low high ↔
      ∃ gap, Gap table low high gap ∧ ∃ c ∈ pieces collecting gap, w ∈ markedWords c := by
  unfold scannedAround
  simp only [List.mem_flatMap]
  refine exists_congr fun gap => and_congr_left' ?_
  rw [mem_scanExcluding sortInternal_sorted fun r mem => bytes r (mem_sortInternal.mp mem),
    sortInternal_eq]
  exact Gap.perm (List.perm_insertionSort _ table)

/-- Each word of the interval that meets no range lies in a gap. -/
theorem exists_gap (bytes : ∀ r ∈ table, r.low < r.high) (above : low ≤ w) (below : w + 8 ≤ high)
    (outside : ∀ r ∈ table, r.Misses w) : ∃ gap, Gap table low high gap ∧ gap.Holds w := by
  have passed : Passed (scanExcluding (sortInternal table) low high) w :=
    (passed_scanExcluding fun r mem => outside r (mem_sortInternal.mp mem)).mpr ⟨above, below⟩
  obtain ⟨gap, mem, holds⟩ := passed
  rw [mem_scanExcluding sortInternal_sorted fun r mem => bytes r (mem_sortInternal.mp mem),
    sortInternal_eq] at mem
  exact ⟨gap, (Gap.perm (List.perm_insertionSort _ table)).mp mem, holds⟩

theorem Gap.misses {gap : Span} (found : Gap table low high gap) (holds : gap.Holds w) {r : Span}
    (mem : r ∈ table) : r.Misses w := by
  have apart := found.apart r mem
  unfold Span.Holds at holds
  unfold Span.Misses
  omega

/-- A piece starts in the last seven bytes of the addresses. -/
def Wraps (collecting : Bool) (table : List Span) (low high : Nat) : Prop :=
  ∃ gap, Gap table low high gap ∧ 0x10000000000000000 ≤ lastPiece collecting gap + 7

/-- The words of the interval that meet no range are marked. -/
def MarksOutside (collecting : Bool) (table : List Span) (low high : Nat) : Prop :=
  ∀ w, 8 ∣ w → low ≤ w → w + 8 ≤ high → (∀ r ∈ table, r.Misses w) →
    w ∈ scannedAround collecting table low high

/-- No word inside a range is marked. -/
def MarksNoneInside (collecting : Bool) (table : List Span) (low high : Nat) : Prop :=
  ∀ w ∈ scannedAround collecting table low high, ∀ r ∈ table, ¬r.Holds w

section Words

variable (bytes : ∀ r ∈ table, r.low < r.high) (word : high < 0x10000000000000000)

include bytes word

/-- A piece that starts in the last seven bytes marks every word there is. -/
theorem Wraps.marks (wraps : Wraps collecting table low high) (aligned : 8 ∣ w)
    (below : w + 8 < 0x10000000000000000) : w ∈ scannedAround collecting table low high := by
  obtain ⟨gap, found, late⟩ := wraps
  have last : 0x10000000000000000 - 7 ≤ lastPiece collecting gap := by omega
  obtain ⟨c, mem, late⟩ := (late_pieces found.some_bytes).mpr last
  have bounds := piece_bounds found.some_bytes mem
  have inside := found.below
  refine (mem_scannedAround bytes).mpr ⟨gap, found, c, mem, ?_⟩
  refine (mem_markedWords_wrapped (by omega) (by omega)).mpr ⟨aligned, ?_⟩
  omega

omit word in
theorem held_of_marked (whole : ¬Wraps collecting table low high)
    (marked : w ∈ scannedAround collecting table low high) :
    ∃ gap, Gap table low high gap ∧ 8 ∣ w ∧ ∃ c ∈ pieces collecting gap, c.Holds w := by
  obtain ⟨gap, found, c, mem, here⟩ := (mem_scannedAround bytes).mp marked
  have early : c.low + 7 < 0x10000000000000000 := by
    refine Nat.lt_of_not_le fun late => whole ⟨gap, found, ?_⟩
    have last := (late_pieces found.some_bytes).mp ⟨c, mem, Nat.le_refl c.low⟩
    omega
  obtain ⟨aligned, holds⟩ := (mem_markedWords early).mp here
  exact ⟨gap, found, aligned, c, mem, holds⟩

theorem marksOutside_iff : MarksOutside collecting table low high ↔
    (collecting = true → ∀ gap, Gap table low high gap → ¬Cut gap) ∨
      Wraps collecting table low high := by
  constructor
  · intro marks
    refine or_iff_not_imp_right.mpr fun whole listed gap found cut => ?_
    obtain ⟨w, aligned, holds, across⟩ := cut_iff.mp cut
    have above := found.above
    have below := found.below
    have marked := marks w aligned (above.trans holds.1) (holds.2.trans below)
      fun r mem => found.misses holds mem
    obtain ⟨gap', found', -, held⟩ := held_of_marked bytes whole marked
    obtain ⟨holds', uncut⟩ := held_pieces.mp held
    unfold Span.Holds at holds holds'
    obtain rfl : gap' = gap := found.unique bytes found' (a := w) (by omega) (by omega)
    exact across (uncut listed)
  · intro condition w aligned above below outside
    by_cases wraps : Wraps collecting table low high
    · exact wraps.marks bytes word aligned (by omega)
    · have uncut := condition.resolve_right wraps
      obtain ⟨gap, found, holds⟩ := exists_gap bytes above below outside
      have held : ∃ c ∈ pieces collecting gap, c.Holds w := by
        refine held_pieces.mpr ⟨holds, fun listed => ?_⟩
        by_contra across
        exact uncut listed gap found (cut_iff.mpr ⟨w, aligned, holds, across⟩)
      obtain ⟨c, mem, holds⟩ := held
      have early : c.low + 7 < 0x10000000000000000 := by
        have bounds := piece_bounds found.some_bytes mem
        have inside := found.below
        unfold Span.Holds at holds
        omega
      exact (mem_scannedAround bytes).mpr
        ⟨gap, found, c, mem, (mem_markedWords early).mpr ⟨aligned, holds⟩⟩

theorem marksNoneInside_iff (short : ∀ r ∈ table, r.high < 0x10000000000000000) :
    MarksNoneInside collecting table low high ↔
      (Wraps collecting table low high → ∀ r ∈ table, ∀ w, 8 ∣ w → ¬r.Holds w) := by
  constructor
  · intro marks wraps r mem w aligned holds
    have below := short r mem
    have inside := holds.2
    exact marks w (wraps.marks bytes word aligned (by omega)) r mem holds
  · intro condition w marked r mem holds
    by_cases wraps : Wraps collecting table low high
    · obtain ⟨gap, found, c, piece, here⟩ := (mem_scannedAround bytes).mp marked
      have aligned : 8 ∣ w := by
        by_cases early : c.low + 7 < 0x10000000000000000
        · exact ((mem_markedWords early).mp here).1
        · have bounds := piece_bounds found.some_bytes piece
          have inside := found.below
          exact ((mem_markedWords_wrapped (by omega) (by omega)).mp here).1
      exact condition wraps r mem w aligned holds
    · obtain ⟨gap, found, -, held⟩ := held_of_marked bytes wraps marked
      have outside := found.misses (held_pieces.mp held).1 mem
      unfold Span.Holds at holds
      unfold Span.Misses at outside
      omega

end Words

/-- The gaps' pieces are what a collecting sweep lists. -/
theorem markRange_eq_chunks (A : Alloc.Arena) (memory : Nat → Nat) (low high : Nat) (c : Collected) :
    markRange A memory low high c =
      (chunks low high).foldl (fun c s => addWork A memory c ⟨s.low, s.high, WordsWork⟩) c := by
  fun_induction markRange A memory low high c with
  | case1 low c more inductionHypothesis =>
      have cut : chunks low high = ⟨low, low + MarkChunk⟩ :: chunks (low + MarkChunk) high := by
        rw [chunks, if_pos more]
      rw [inductionHypothesis, cut, List.foldl_cons]
  | case2 low c more some =>
      rw [chunks, if_neg more, if_pos some, List.foldl_cons, List.foldl_nil]
  | case3 low c more none => rw [chunks, if_neg more, if_neg none, List.foldl_nil]

/-- What is listed of a range are the words of its chunks. -/
theorem Covers.chunks {A : Alloc.Arena} {h : Alloc.Heap} {memory : Nat → Nat} {c : Collected}
    {W : Set Nat} (covers : Covers A h memory c W) (low high : Nat) :
    Covers A h memory (Sweep.markRange A memory low high c)
      (W ∪ {v | ∃ s ∈ Sweep.chunks low high, v ∈ Alloc.Heap.wordsIn memory s.low s.high}) := by
  rw [markRange_eq_chunks]
  generalize Sweep.chunks low high = cut
  induction cut generalizing c W with
  | nil =>
      refine covers.congr fun value => ?_
      simp
  | cons s cut inductionHypothesis =>
      rw [List.foldl_cons]
      refine (inductionHypothesis (covers.addWork _)).congr fun value => ?_
      simp only [Set.mem_union, Set.mem_ofPred_eq, List.mem_cons, exists_eq_or_imp, Work.words,
        if_true]
      tauto

/-- The values marked from are those of the words. -/
theorem wordsIn_eq (memory : Nat → Nat) {s : Span} (early : s.low + 7 < 0x10000000000000000) :
    Alloc.Heap.wordsIn memory s.low s.high = (markedWords s).map memory := by
  unfold Alloc.Heap.wordsIn markedWords
  have count : s.high / 8 - (s.low + 7) / 8 = (s.high / 8 * 8 - (s.low + 7) / 8 * 8) / 8 := by omega
  dsimp only
  rw [Nat.mod_eq_of_lt early, List.map_map, count]
  refine List.map_congr_left fun i _ => ?_
  have same : ((s.low + 7) / 8 + i) * 8 = (s.low + 7) / 8 * 8 + 8 * i := by omega
  exact congrArg memory same

/-- In the interval every word that meets no range is marked and none inside a
range is, exactly when no end of a chunk goes through a word and no piece starts
in the last seven bytes of the addresses (or only the words inside the ranges, of
which there are none, would tell); and `skipInternal` finds the first address
that no range holds. -/
theorem scans_around_iff (bytes : ∀ r ∈ table, r.low < r.high)
    (short : ∀ r ∈ table, r.high < 0x10000000000000000) (word : high < 0x10000000000000000) :
    (MarksOutside collecting table low high ∧ MarksNoneInside collecting table low high ↔
      ((collecting = true → ∀ gap, Gap table low high gap → ¬Cut gap) ∨
          Wraps collecting table low high) ∧
        (Wraps collecting table low high → ∀ r ∈ table, ∀ w, 8 ∣ w → ¬r.Holds w)) ∧
      ∀ address,
        let found := skipInternal (sortInternal table) address
        address ≤ found ∧ (∀ r ∈ table, ¬(r.low ≤ found ∧ found < r.high)) ∧
          ∀ a, address ≤ a → a < found → ∃ r ∈ table, r.low ≤ a ∧ a < r.high := by
  constructor
  · rw [marksOutside_iff bytes word, marksNoneInside_iff bytes word short]
  · intro address found
    refine ⟨le_skipInternal _ address, fun r mem => ?_, fun a above below => ?_⟩
    · exact skipInternal_outside sortInternal_sorted r (mem_sortInternal.mpr mem)
    · obtain ⟨r, mem, inside⟩ := skipInternal_skips above below
      exact ⟨r, mem_sortInternal.mp mem, inside⟩

end Marked

/-! ## An interval with a range in it, and one that no word starts -/

def sampleRanges : List Span := [⟨0x20000, 0x21000⟩, ⟨0x10000, 0x12000⟩, ⟨0x11000, 0x11800⟩]

theorem sampleRanges_bytes : ∀ r ∈ sampleRanges, r.low < r.high := by decide

theorem not_wraps {table : List Span} {low high : Nat} (near : high < 0x10000000000000) :
    ¬Wraps false table low high := by
  rintro ⟨gap, found, late⟩
  change 0x10000000000000000 ≤ gap.low + 7 at late
  have bytes := found.some_bytes
  have below := found.below
  omega

theorem scans_around_sample : MarksOutside false sampleRanges 0x10804 0x30000 ∧
    MarksNoneInside false sampleRanges 0x10804 0x30000 := by
  have whole : ¬Wraps false sampleRanges 0x10804 0x30000 := not_wraps (by decide)
  exact (scans_around_iff sampleRanges_bytes (by decide) (by decide)).1.mpr
    ⟨.inl Bool.noConfusion, fun wraps => absurd wraps whole⟩

/-- A parallel sweep lists an interval that starts inside a word in chunks that
do: the word at 0x410000 lies across two of them. -/
theorem chunk_end_unmarked : ¬MarksOutside true [] 0x10004 0x410010 := by
  have none : ∀ r ∈ ([] : List Span), r.low < r.high := fun _ mem => absurd mem List.not_mem_nil
  have whole (gap : Span) (found : Gap [] 0x10004 0x410010 gap) : gap = ⟨0x10004, 0x410010⟩ := by
    obtain ⟨-, -, -, -, starts, ends⟩ := found
    obtain ⟨start, last⟩ : gap.low = 0x10004 ∧ gap.high = 0x410010 := by
      simpa using And.intro starts ends
    rw [← start, ← last]
  have found : Gap [] 0x10004 0x410010 ⟨0x10004, 0x410010⟩ :=
    ⟨Nat.le_refl _, by decide, Nat.le_refl _, fun _ mem => absurd mem List.not_mem_nil, .inl rfl,
      .inl rfl⟩
  rw [marksOutside_iff none (by decide)]
  rintro (uncut | ⟨gap, found', late⟩)
  · exact uncut rfl _ found (by decide)
  · rw [whole gap found'] at late
    exact absurd late (by decide)

end WeaveC.Sweep
