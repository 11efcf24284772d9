import Mathlib.Data.List.InsertIdx
import Mathlib.Tactic.Common

/-!
# Searching by halves

Of a test that fails for good once it has failed, halving an interval finds the
first index that fails it.  An element put into an ordered list where such a
search ends leaves it ordered.
-/

namespace WeaveC.Library

/-- The first index from `low` on that fails the test, `high` if none below it
does. -/
def bisect (p : Nat → Bool) : Nat → Nat → Nat → Nat
  | 0, low, _ => low
  | fuel + 1, low, high =>
      if low < high then
        let mid := low + (high - low) / 2
        if p mid then bisect p fuel (mid + 1) high else bisect p fuel low mid
      else low

section Bisect

variable {p : Nat → Bool}

theorem bisect_le {fuel low high : Nat} (order : low ≤ high) : bisect p fuel low high ≤ high := by
  induction fuel generalizing low high with
  | zero => exact order
  | succ fuel inductionHypothesis =>
      unfold bisect
      dsimp only
      split_ifs
      · exact inductionHypothesis (by omega)
      · have half : bisect p fuel low (low + (high - low) / 2) ≤ low + (high - low) / 2 :=
          inductionHypothesis (by omega)
        omega
      · exact order

/-- All indices below the one found pass the test, none from there on does. -/
theorem bisect_spec (once : ∀ i j, i ≤ j → p j = true → p i = true) {fuel low high : Nat}
    (enough : high - low ≤ fuel) :
    (∀ i, low ≤ i → i < bisect p fuel low high → p i = true) ∧
      ∀ i, bisect p fuel low high ≤ i → i < high → p i = false := by
  induction fuel generalizing low high with
  | zero => exact ⟨fun i above below => absurd below (Nat.not_lt.mpr above),
      fun i above below => by
        unfold bisect at above
        omega⟩
  | succ fuel inductionHypothesis =>
      unfold bisect
      dsimp only
      split_ifs with more passes
      · obtain ⟨before, after⟩ :=
          @inductionHypothesis (low + (high - low) / 2 + 1) high (by omega)
        refine ⟨fun i above below => ?_, after⟩
        by_cases past : low + (high - low) / 2 < i
        · exact before i past below
        · exact once i _ (Nat.not_lt.mp past) passes
      · obtain ⟨before, after⟩ := @inductionHypothesis low (low + (high - low) / 2) (by omega)
        refine ⟨before, fun i above below => ?_⟩
        by_cases past : i < low + (high - low) / 2
        · exact after i above past
        · rw [← Bool.not_eq_true]
          exact fun again => passes (once _ i (Nat.not_lt.mp past) again)
      · exact ⟨fun i above below => absurd below (Nat.not_lt.mpr above),
          fun i above below => absurd (Nat.lt_of_le_of_lt above below) more⟩

end Bisect

theorem pairwise_insertIdx {α : Type*} {R : α → α → Prop} {l : List α} {i : Nat} {b : α}
    (sorted : l.Pairwise R) (before : ∀ j a, l[j]? = some a → j < i → R a b)
    (after : ∀ j a, l[j]? = some a → i ≤ j → R b a) : (l.insertIdx i b).Pairwise R := by
  induction l generalizing i with
  | nil =>
      cases i with
      | zero => exact List.pairwise_singleton R b
      | succ i => exact List.Pairwise.nil
  | cons c l inductionHypothesis =>
      obtain ⟨first, rest⟩ := List.pairwise_cons.mp sorted
      cases i with
      | zero =>
          refine List.pairwise_cons.mpr ⟨fun a mem => ?_, sorted⟩
          obtain ⟨j, listed⟩ := List.mem_iff_getElem?.mp mem
          exact after j a listed (Nat.zero_le j)
      | succ i =>
          rw [List.insertIdx_succ_cons]
          refine List.pairwise_cons.mpr ⟨fun a mem => ?_, inductionHypothesis rest ?_ ?_⟩
          · rcases List.eq_or_mem_of_mem_insertIdx mem with new | old
            · exact new ▸ before 0 c rfl (Nat.succ_pos i)
            · exact first a old
          · exact fun j a listed below =>
              before (j + 1) a listed (Nat.succ_lt_succ below)
          · exact fun j a listed above =>
              after (j + 1) a listed (Nat.succ_le_succ above)

end WeaveC.Library
