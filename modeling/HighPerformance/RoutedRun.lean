import HighPerformance.FallibleRun
import HighPerformance.Types
import Mathlib.Logic.Function.Basic

/-!
# A table of machines

One machine for each key, and a step that feeds an input to the machine of its key: `route` is the
key of an input, `step` the machine at a key. The run of the table is the runs of its machines, each
with its own inputs in their order.
-/

namespace HighPerformance.RoutedRun
open FallibleRun

variable {κ σ ι ε : Type} [DecidableEq κ] (route : ι → κ) (step : κ → σ → ι → Except ε σ)

/-- The machine of the input's key takes it. -/
def stepAt (table : κ → σ) (i : ι) : Except ε (κ → σ) :=
  (step (route i) (table (route i)) i).map (Function.update table (route i))

/-- The inputs of one key. -/
def inputsAt (k : κ) (is : List ι) : List ι := is.filter fun i => route i = k

variable {route step} {table table' : κ → σ} {i : ι} {is : List ι}

theorem inputsAt_own : inputsAt route (route i) (i :: is) = i :: inputsAt route (route i) is := by
  simp [inputsAt]

theorem inputsAt_other {k : κ} (h : route i ≠ k) :
    inputsAt route k (i :: is) = inputsAt route k is := by
  simp [inputsAt, h]

theorem stepAt_eq_ok (h : stepAt route step table i = .ok table') :
    ∃ s, step (route i) (table (route i)) i = .ok s ∧
      table' = Function.update table (route i) s := by
  obtain ⟨s, hs, heq⟩ := map_eq_ok h
  exact ⟨s, hs, heq.symm⟩

/-- Each machine has run on its own inputs. -/
theorem run_at (h : run (stepAt route step) table is = .ok table') (k : κ) :
    run (step k) (table k) (inputsAt route k is) = .ok (table' k) := by
  induction is generalizing table with
  | nil =>
    cases h
    rfl
  | cons i is ih =>
    obtain ⟨t, ht, h⟩ := run_cons_eq_ok.mp h
    obtain ⟨s, hs, rfl⟩ := stepAt_eq_ok ht
    have hrest := ih h
    by_cases hk : route i = k
    · subst hk
      rw [Function.update_self] at hrest
      rw [inputsAt_own, run_cons_ok hs]
      exact hrest
    · rw [Function.update_of_ne (Ne.symm hk)] at hrest
      rw [inputsAt_other hk]
      exact hrest

theorem run_of_all (h : ∀ k, run (step k) (table k) (inputsAt route k is) = .ok (table' k)) :
    run (stepAt route step) table is = .ok table' := by
  induction is generalizing table with
  | nil =>
    have hsame : table = table' := funext fun k => Except.ok.inj (h k)
    rw [hsame, run_nil]
  | cons i is ih =>
    have hown := h (route i)
    rw [inputsAt_own] at hown
    obtain ⟨s, hs, hown⟩ := run_cons_eq_ok.mp hown
    have hstep : stepAt route step table i = .ok (Function.update table (route i) s) := by
      rw [stepAt, hs]
      rfl
    rw [run_cons_ok hstep]
    apply ih
    intro k
    by_cases hk : k = route i
    · subst hk
      rw [Function.update_self]
      exact hown
    · have hother := h k
      rw [inputsAt_other (Ne.symm hk)] at hother
      rw [Function.update_of_ne hk]
      exact hother

end HighPerformance.RoutedRun
