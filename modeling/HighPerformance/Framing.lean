import Mathlib.Algebra.Group.Nat.Defs
import Mathlib.Data.Nat.Notation
import Mathlib.Data.List.Basic

/-!
# Records of one size in a stream

`frames n` cuts a buffer into its complete records of `n` entries and `rest n` is
what remains behind them. A receiver that takes the complete records after every
chunk and keeps the rest sees the records of the whole stream (`frames_append`,
`rest_append`), wherever the stream is cut.

`leBytes` and `leValue` are the little-endian bytes of an integer.
-/

namespace HighPerformance.Framing

section Records
variable {α : Type} {n : ℕ}

def cut (n : ℕ) : ℕ → List α → List (List α)
  | 0, _ => []
  | k + 1, xs => xs.take n :: cut n k (xs.drop n)

def frames (n : ℕ) (xs : List α) : List (List α) := cut n (xs.length / n) xs

def rest (n : ℕ) (xs : List α) : List α := xs.drop (xs.length / n * n)

theorem frames_of_lt {xs : List α} (h : xs.length < n) : frames n xs = [] := by
  rw [frames, Nat.div_eq_of_lt h, cut]

theorem rest_of_lt {xs : List α} (h : xs.length < n) : rest n xs = xs := by
  rw [rest, Nat.div_eq_of_lt h, Nat.zero_mul, List.drop_zero]

theorem div_eq_succ {m : ℕ} (hn : 0 < n) (h : n ≤ m) : m / n = (m - n) / n + 1 := by
  rw [← Nat.add_div_right _ hn, Nat.sub_add_cancel h]

theorem frames_of_le {xs : List α} (hn : 0 < n) (h : n ≤ xs.length) :
    frames n xs = xs.take n :: frames n (xs.drop n) := by
  rw [frames, frames, div_eq_succ hn h, cut, List.length_drop]

theorem rest_of_le {xs : List α} (hn : 0 < n) (h : n ≤ xs.length) :
    rest n xs = rest n (xs.drop n) := by
  rw [rest, rest, div_eq_succ hn h, List.length_drop, List.drop_drop, Nat.add_mul, Nat.one_mul,
    Nat.add_comm]

theorem frames_append (hn : 0 < n) (xs ys : List α) :
    frames n (xs ++ ys) = frames n xs ++ frames n (rest n xs ++ ys) := by
  induction hlen : xs.length using Nat.strongRecOn generalizing xs with
  | _ m ih =>
    by_cases h : n ≤ xs.length
    · have hdrop : (xs.drop n).length < m := by
        rw [List.length_drop]
        omega
      rw [frames_of_le hn (by rw [List.length_append]; omega), List.take_append_of_le_length h,
        List.drop_append_of_le_length h, ih _ hdrop _ rfl, frames_of_le hn h, rest_of_le hn h,
        List.cons_append]
    · have hshort : xs.length < n := Nat.not_le.mp h
      rw [frames_of_lt hshort, rest_of_lt hshort, List.nil_append]

theorem rest_append (hn : 0 < n) (xs ys : List α) :
    rest n (xs ++ ys) = rest n (rest n xs ++ ys) := by
  induction hlen : xs.length using Nat.strongRecOn generalizing xs with
  | _ m ih =>
    by_cases h : n ≤ xs.length
    · have hdrop : (xs.drop n).length < m := by
        rw [List.length_drop]
        omega
      rw [rest_of_le hn (by rw [List.length_append]; omega),
        List.drop_append_of_le_length h, ih _ hdrop _ rfl, rest_of_le hn h]
    · rw [rest_of_lt (Nat.not_le.mp h)]

/-- The complete records in a beginning of a stream of records. -/
theorem frames_prefix (hn : 0 < n) (xs : List (List α)) (hxs : ∀ x ∈ xs, x.length = n)
    (ys : List α) (h : ys <+: xs.flatten) : frames n ys = xs.take (ys.length / n) := by
  induction xs generalizing ys with
  | nil =>
    rw [List.prefix_nil.mp h, frames_of_lt hn, List.take_nil]
  | cons x xs ih =>
    have hx := hxs x List.mem_cons_self
    rw [List.flatten_cons] at h
    by_cases hle : n ≤ ys.length
    · have htake : ys.take n = x := by
        rw [List.prefix_iff_eq_take.mp h, List.take_take, Nat.min_eq_left hle, ← hx,
          List.take_left]
      have hys : x ++ ys.drop n = ys := by
        rw [← htake, List.take_append_drop]
      rw [← hys] at h
      have hrest := (List.prefix_append_right_inj x).mp h
      rw [frames_of_le hn hle, htake, ih (fun z hz => hxs z (List.mem_cons_of_mem x hz)) _ hrest,
        List.length_drop, div_eq_succ hn hle, List.take_succ_cons]
    · rw [frames_of_lt (by omega), Nat.div_eq_of_lt (by omega), List.take_zero]

end Records

section Integers

def leBytes : ℕ → ℕ → List UInt8
  | 0, _ => []
  | w + 1, x => UInt8.ofNat x :: leBytes w (x / 256)

def leValue : List UInt8 → ℕ
  | [] => 0
  | b :: bs => b.toNat + 256 * leValue bs

@[simp] theorem length_leBytes (w x : ℕ) : (leBytes w x).length = w := by
  induction w generalizing x with
  | zero => rfl
  | succ w ih => rw [leBytes, List.length_cons, ih]

theorem leValue_leBytes {w x : ℕ} (h : x < 256 ^ w) : leValue (leBytes w x) = x := by
  induction w generalizing x with
  | zero =>
    rw [Nat.pow_zero] at h
    rw [leBytes, leValue]
    omega
  | succ w ih =>
    have hrest : x / 256 < 256 ^ w := by
      rw [Nat.pow_succ, Nat.mul_comm] at h
      exact Nat.div_lt_of_lt_mul h
    rw [leBytes, leValue, ih hrest, UInt8.toNat_ofNat']
    omega

end Integers

end HighPerformance.Framing
