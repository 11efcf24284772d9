import WeaveC.Alloc.Marking
import WeaveC.Sweep.Excluded
import WeaveC.Sweep.Workers

/-!
# Which words a sweep reads

A sequential sweep reads every word of the ranges that it scans.  One that marks
in parallel reads the words that lie in one of its chunks, if everything listed
has been read when `runWork` returns.  These are all the words, unless a range
starts inside a word and the end of its first chunk goes through one.
-/

namespace WeaveC.Alloc

open WeaveC.Library

variable {T : Type} {A : Arena} {h : Heap} {place : Slot → Place T} {scan : Scan} {value : Nat}

/-! ## Chunks -/

/-- The chunks that a parallel sweep cuts the ranges into. -/
def Scan.chunked (scan : Scan) : Scan :=
  { scan with
    ranges := scan.ranges.flatMap fun range =>
      (Sweep.chunks range.1 range.2).map fun s => (s.low, s.high) }

namespace Heap

open WeaveC.Sweep in
/-- The chunks of a range hold its words if none is cut. -/
theorem cellIn_chunks {low high cell : Nat} (uncut : ¬ Cut ⟨low, high⟩) :
    (∃ s ∈ chunks low high, CellIn s.low s.high cell) ↔ CellIn low high cell := by
  unfold CellIn
  constructor
  · rintro ⟨s, mem, aligned, holds⟩
    obtain ⟨above, below, -⟩ := held_chunks.mp ⟨s, mem, holds⟩
    exact ⟨aligned, above, below⟩
  · rintro ⟨aligned, above, below⟩
    have one : (cell - low) / MarkChunk = (cell + 7 - low) / MarkChunk := by
      by_contra across
      exact uncut (cut_iff.mpr ⟨cell, aligned, ⟨above, below⟩, across⟩)
    obtain ⟨s, mem, holds⟩ := held_chunks.mpr ⟨above, below, one⟩
    exact ⟨s, mem, aligned, holds⟩

theorem scans_chunked_iff (uncut : ∀ range ∈ scan.ranges, ¬ Sweep.Cut ⟨range.1, range.2⟩) :
    h.Scans A scan.chunked value ↔ h.Scans A scan value := by
  constructor
  · rintro ⟨low, high, cell, reads, inside, read⟩
    cases reads with
    | range listed =>
        obtain ⟨range, mem, cut⟩ := List.mem_flatMap.mp listed
        obtain ⟨s, piece, eq⟩ := List.mem_map.mp cut
        obtain ⟨rfl, rfl⟩ := Prod.mk.inj eq
        have whole := (cellIn_chunks (uncut range mem)).mp ⟨s, piece, inside⟩
        exact ⟨_, _, cell, .range mem, whole, read⟩
    | slot x live => exact ⟨_, _, cell, .slot x live, inside, read⟩
    | huge b listed live => exact ⟨_, _, cell, .huge b listed live, inside, read⟩
  · rintro ⟨low, high, cell, reads, inside, read⟩
    cases reads with
    | range listed =>
        obtain ⟨s, piece, within⟩ := (cellIn_chunks (uncut _ listed)).mpr inside
        refine ⟨s.low, s.high, cell, .range (List.mem_flatMap.mpr ⟨_, listed, ?_⟩), within, read⟩
        exact List.mem_map_of_mem piece
    | slot x live => exact ⟨_, _, cell, .slot x live, inside, read⟩
    | huge b listed live => exact ⟨_, _, cell, .huge b listed live, inside, read⟩

/-! ## What is marked -/

section Mark

variable {answer : WorldAnswer}

theorem parallel_markWords (h : Heap) (words : List Nat) :
    (h.markWords A words).Parallel answer ↔ h.Parallel answer := by
  have live : (h.markWords A words).liveBytes = h.liveBytes := by
    unfold markWords
    refine List.foldlRecOn words _ (motive := fun g : Heap => g.liveBytes = h.liveBytes) rfl ?_
    intro g same value _
    rw [← same, markAddress_eq]
    cases g.target A value with
    | none => rfl
    | some t => cases t <;> rfl
  unfold Parallel
  rw [live]

/-- A parallel sweep marks from the words of its chunks, of the live slots and of
the live huge blocks, if everything listed has been read. -/
theorem exists_markParallel_eq (ok : TableOk A h.table place)
    (whole : ∀ i < (h.gathered A answer).work.length, ∀ j, answer.read i j = true) :
    ∃ words, h.markParallel A answer = h.markWords A words ∧
      ∀ value, value ∈ words ↔ h.Scans A answer.scan.chunked value := by
  obtain ⟨now, heap, covered⟩ : Sweep.Covers A h answer.scan.memory (h.gathered A answer) _ :=
    Sweep.gather_covers (Sweep.TableOk.listable ok) answer.scan.ranges
      (fun range => {v | ∃ s ∈ Sweep.chunks range.1 range.2,
        v ∈ wordsIn answer.scan.memory s.low s.high})
      fun range _ c W covers => covers.chunks range.1 range.2
  let read := Sweep.readWords A answer.scan.memory h answer.read (h.gathered A answer).work
  refine ⟨now ++ read ++ h.hugeWords answer.scan.memory, ?_, fun value => ?_⟩
  · unfold markParallel
    dsimp only
    rw [heap, markWords_append, markWords_append]
  · have ranges : value ∈ (answer.scan.chunked.ranges.flatMap fun range =>
          wordsIn answer.scan.memory range.1 range.2) ↔
        ∃ range ∈ answer.scan.ranges, ∃ s ∈ Sweep.chunks range.1 range.2,
          value ∈ wordsIn answer.scan.memory s.low s.high := by
      unfold Scan.chunked
      simp only [List.flatMap_assoc, List.flatMap_map, List.mem_flatMap]
    rw [← mem_scannedWords ok]
    unfold scannedWords
    simp only [List.mem_append, read, Sweep.mem_readWords_whole whole]
    rw [← covered value]
    exact (or_congr_left (or_congr_left ranges.symm)).trans or_assoc

/-- The ranges whose words a sweep reads. -/
def passed (h : Heap) (answer : WorldAnswer) : Scan :=
  if h.Parallel answer then answer.scan.chunked else answer.scan

/-- What a parallel sweep lists, with the marks mapped and the registers' words
marked. -/
def listed (A : Arena) (h : Heap) (answer : WorldAnswer) : Sweep.Collected :=
  ((h.prepared answer).markWords A answer.registers).gathered A answer

/-- The sweep marks from the registers and from every word of what it passes on, if
everything listed has been read. -/
theorem marksFrom_passed (ok : TableOk A h.table place)
    (whole : h.Parallel answer →
      ∀ i < (h.listed A answer).work.length, ∀ j, answer.read i j = true) :
    h.MarksFrom A answer (h.passed answer) := by
  let g := (h.prepared answer).markWords A answer.registers
  have marked := sameButMarks_markWords A (h.prepared answer) answer.registers
  have slots : h.table.SameSlots g.table := (prepared_sameSlots h answer).trans marked.slots
  have same : g.Parallel answer ↔ h.Parallel answer := parallel_markWords (h.prepared answer) _
  obtain ⟨words, eq, mem⟩ : ∃ words,
      (if g.Parallel answer then g.markParallel A answer
        else g.markWords A (g.scannedWords A answer.scan)) = g.markWords A words ∧
        ∀ value, value ∈ words ↔ g.Scans A (h.passed answer) value := by
    unfold passed
    by_cases parallel : h.Parallel answer
    · rw [if_pos (same.mpr parallel), if_pos parallel]
      exact exists_markParallel_eq (ok.sameSlots slots) (whole parallel)
    · rw [if_neg (mt same.mp parallel), if_neg parallel]
      exact ⟨_, rfl, fun value => mem_scannedWords (ok.sameSlots slots)⟩
  refine ⟨answer.registers ++ words, ?_, fun value => ?_⟩
  · rw [markWords_append]
    exact eq
  · rw [List.mem_append, mem]
    exact or_congr_right (scans_congr slots marked.blocks)

/-! ## Thorough sweeps -/

/-- The round in which `count` listed items are marked is one that `runWork` returns
from in a run of the sweeping thread and its workers, none of them still in an
earlier round whenever one starts. -/
def WorldAnswer.Round (answer : WorldAnswer) (count : Nat) : Prop :=
  ∃ wanted pool, Run (Sweep.Pool.step wanted) Sweep.Pool.Quiet .initial pool ∧
    pool.sweeper = .returned ∧ pool.workerCount = answer.workers ∧ pool.workCount = count ∧
      ∀ i ∈ pool.marked, ∀ j, answer.read i j = true

/-- Where a sweep marks in parallel, no chunk of its ranges ends inside a word and
its round is such a one. -/
def Thorough (A : Arena) (h : Heap) (answer : WorldAnswer) : Prop :=
  h.Parallel answer → (∀ range ∈ answer.scan.ranges, ¬ Sweep.Cut ⟨range.1, range.2⟩) ∧
    answer.Round (h.listed A answer).work.length

theorem WorldAnswer.Round.read {count : Nat} (round : answer.Round count) :
    ∀ i < count, ∀ j, answer.read i j = true := by
  obtain ⟨wanted, pool, run, returned, -, rfl, marked⟩ := round
  have items := ((Sweep.Pool.invariant_run run).passed returned).1
  exact fun i below => marked i (items i below)

/-- A thorough sweep marks from the registers and from every word that it should
scan. -/
theorem marksFrom_of_thorough (ok : TableOk A h.table place) (thorough : h.Thorough A answer) :
    h.MarksFrom A answer answer.scan := by
  obtain ⟨words, eq, mem⟩ := marksFrom_passed ok fun parallel => (thorough parallel).2.read
  refine ⟨words, eq, fun value => (mem value).trans (or_congr_right ?_)⟩
  unfold passed
  split_ifs with parallel
  · exact scans_chunked_iff (thorough parallel).1
  · exact .rfl

end Mark

end Heap

end WeaveC.Alloc
