import Mathlib.Algebra.BigOperators.Fin
import Mathlib.Data.Fintype.Card
import Mathlib.Logic.Function.Basic

/-!
# Counting the threads at a place

Each of finitely many threads is at one place or nowhere. When one thread moves, only the counts of
the place that it leaves and of the place that it enters change.
-/

namespace HighPerformance.ThreadCounts

variable {τ κ : Type} [Fintype τ] [DecidableEq κ]

/-- How many threads are at `k`. -/
def count (place : τ → Option κ) (k : κ) : ℕ :=
  (Finset.univ.filter fun t => place t = some k).card

variable {place : τ → Option κ} {t : τ} {k : κ} {x : Option κ}

theorem count_pos_iff : 0 < count place k ↔ ∃ t, place t = some k := by
  simp [count, Finset.card_pos, Finset.filter_nonempty_iff]

theorem count_eq_zero_iff : count place k = 0 ↔ ∀ t, place t ≠ some k := by
  simp [count, Finset.filter_eq_empty_iff]

variable [DecidableEq τ]

/-- The threads other than `t` stay where they are. -/
theorem count_update (place : τ → Option κ) (t : τ) (x : Option κ) (k : κ) :
    count (Function.update place t x) k + (if place t = some k then 1 else 0) =
      count place k + if x = some k then 1 else 0 := by
  have hsum : ∀ f : τ → Option κ, count f k =
      (if f t = some k then 1 else 0) + ∑ u ∈ Finset.univ.erase t, if f u = some k then 1 else 0 := by
    intro f
    rw [count, Finset.card_filter]
    exact (Finset.add_sum_erase _ _ (Finset.mem_univ t)).symm
  have hrest : ∀ u ∈ Finset.univ.erase t,
      (if Function.update place t x u = some k then 1 else 0) = if place u = some k then 1 else 0 := by
    intro u hu
    rw [Function.update_of_ne (Finset.ne_of_mem_erase hu)]
  rw [hsum (Function.update place t x), hsum place, Finset.sum_congr rfl hrest,
    Function.update_self]
  omega

theorem count_update_other (hold : place t ≠ some k) (hnew : x ≠ some k) :
    count (Function.update place t x) k = count place k := by
  have h := count_update place t x k
  rw [if_neg hold, if_neg hnew] at h
  omega

theorem count_enter (hold : place t ≠ some k) :
    count (Function.update place t (some k)) k = count place k + 1 := by
  have h := count_update place t (some k) k
  rwa [if_neg hold, if_pos rfl] at h

theorem count_leave (hold : place t = some k) (hnew : x ≠ some k) :
    count (Function.update place t x) k + 1 = count place k := by
  have h := count_update place t x k
  rwa [if_pos hold, if_neg hnew] at h

end HighPerformance.ThreadCounts
