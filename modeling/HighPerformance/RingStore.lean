import Mathlib.Data.List.Infix
import Mathlib.Data.Nat.ModEq
import Mathlib.Logic.Function.Basic

/-!
# Ring buffers

A store of `n` slots is written at position after position, where position `i`
is in the slot `i % n`. `Keeps n store ws k` says that the values written so far
are `ws` and that those from position `k` on are still in their slots.
-/

namespace HighPerformance.RingStore

variable {T : Type*} {n k i j : ℕ} {store : ℕ → T} {ws : List T} {x : T}

/-- Positions less than one round apart have different slots. -/
theorem slot_injective (hij : i % n = j % n) (hle : i ≤ j) (hlt : j < i + n) : i = j := by
  have hdvd : n ∣ j - i := (Nat.modEq_iff_dvd' hle).mp hij
  have hzero : j - i = 0 := Nat.eq_zero_of_dvd_of_lt hdvd (by omega)
  omega

theorem next_slot (n i : ℕ) : (i % n + 1) % n = (i + 1) % n := by
  rw [Nat.mod_add_mod]

def Keeps (n : ℕ) (store : ℕ → T) (ws : List T) (k : ℕ) : Prop :=
  ∀ i, k ≤ i → i < ws.length → ws[i]? = some (store (i % n))

theorem keeps_nil (n : ℕ) (store : ℕ → T) : Keeps n store [] k := by
  intro i _ hi
  exact (Nat.not_lt_zero i hi).elim

theorem Keeps.get (h : Keeps n store ws k) (hk : k < ws.length) : ws[k]? = some (store (k % n)) :=
  h k (Nat.le_refl k) hk

theorem Keeps.mono (h : Keeps n store ws k) (hle : k ≤ j) : Keeps n store ws j :=
  fun i hi => h i (Nat.le_trans hle hi)

theorem Keeps.assign (h : Keeps n store ws k) (hroom : ws.length < k + n) (x : T) :
    Keeps n (Function.update store (ws.length % n) x) ws k := by
  intro i hi hlt
  have hslot : i % n ≠ ws.length % n := by
    intro he
    have hsame : i = ws.length := slot_injective he (Nat.le_of_lt hlt) (by omega)
    omega
  rw [Function.update_of_ne hslot]
  exact h i hi hlt

theorem Keeps.publish (h : Keeps n store ws k) (hx : store (ws.length % n) = x) :
    Keeps n store (ws ++ [x]) k := by
  intro i hi hlt
  rw [List.length_append, List.length_singleton] at hlt
  by_cases hold : i < ws.length
  · rw [List.getElem?_append_left hold]
    exact h i hi hold
  · have hlast : i = ws.length := by omega
    rw [hlast, hx, List.getElem?_concat_length]

theorem Keeps.write (h : Keeps n store ws k) (hroom : ws.length < k + n) :
    Keeps n (Function.update store (ws.length % n) x) (ws ++ [x]) k :=
  (h.assign hroom x).publish (Function.update_self _ _ _)

theorem concat_prefix {vs ws : List T} (hvs : vs <+: ws) (hget : ws[vs.length]? = some x) :
    vs ++ [x] <+: ws := by
  obtain ⟨hlt, hx⟩ := List.getElem?_eq_some_iff.mp hget
  rw [← hx]
  exact List.concat_get_prefix hvs hlt

theorem Keeps.take_prefix {vs : List T} (h : Keeps n store ws vs.length) (hvs : vs <+: ws)
    (hlt : vs.length < ws.length) : vs ++ [store (vs.length % n)] <+: ws :=
  concat_prefix hvs (h.get hlt)

/-- The slots of the positions from `hi` on are empty, up to one round past `lo`. -/
def Vacant (n : ℕ) (store : ℕ → Option T) (lo hi : ℕ) : Prop :=
  ∀ i, hi ≤ i → i < lo + n → store (i % n) = none

section Slots
variable {store : ℕ → Option T} {ws : List (Option T)} {lo hi : ℕ}

theorem Vacant.empty (h : Vacant n store lo hi) (hroom : hi < lo + n) : store (hi % n) = none :=
  h hi (Nat.le_refl hi) hroom

theorem Vacant.fill (h : Vacant n store lo hi) (hle : lo ≤ hi) (y : Option T) :
    Vacant n (Function.update store (hi % n) y) lo (hi + 1) := by
  intro i hi' hlt
  have hslot : i % n ≠ hi % n := by
    intro he
    have hsame : hi = i := slot_injective he.symm (by omega) (by omega)
    omega
  rw [Function.update_of_ne hslot]
  exact h i (by omega) hlt

theorem Vacant.clear (h : Vacant n store lo hi) :
    Vacant n (Function.update store (lo % n) none) (lo + 1) hi := by
  intro i hi' hlt
  by_cases hslot : i % n = lo % n
  · rw [hslot, Function.update_self]
  · rw [Function.update_of_ne hslot]
    refine h i hi' ?_
    have hne : i ≠ lo + n := by
      rintro rfl
      exact hslot (Nat.add_mod_right lo n)
    omega

theorem Keeps.clear (h : Keeps n store ws lo) (hle : ws.length ≤ lo + n) :
    Keeps n (Function.update store (lo % n) none) ws (lo + 1) := by
  intro i hi' hlt
  have hslot : i % n ≠ lo % n := by
    intro he
    have hsame : lo = i := slot_injective he.symm (by omega) (by omega)
    omega
  rw [Function.update_of_ne hslot]
  exact h i (by omega) hlt

end Slots

end HighPerformance.RingStore
