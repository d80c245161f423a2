import Mathlib.Data.Int.Notation
import Mathlib.Data.Nat.Notation

/-!
# Signed machine integers

A signed counter of `m` values is taken modulo `m` around 0. It shows a natural number as it is just
if this number is in its upper half.
-/

namespace CLib

theorem bmod_natCast_eq_iff {n m : ℕ} (hm : 0 < m) : (n : ℤ).bmod m = n ↔ n < (m + 1) / 2 := by
  refine ⟨fun h => ?_, fun h => Int.bmod_eq_of_le (by omega) (by omega)⟩
  have hlt := Int.bmod_lt (x := n) hm
  omega

end CLib
