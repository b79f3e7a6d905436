import Mathlib.Data.Nat.Bitwise
import Mathlib.Data.Nat.Size
import Mathlib.Algebra.Order.Group.Nat

/-!
# Rounding up to a power of two

`smear shifts m` ors `m` with its own right shifts, one shift after another. With
the shifts 1, 2, 4, … the highest set bit of `m` spreads to all bits below it, so
that the result is one less than a power of two.
-/

namespace HighPerformance.BitSmear

def smear (shifts : List ℕ) (m : ℕ) : ℕ := shifts.foldl (fun m i => m ||| (m >>> i)) m

end HighPerformance.BitSmear
