import Mathlib.Algebra.Ring.Int.Defs
import Mathlib.Algebra.Ring.Nat

/-!
# The C type `int`

`wrap x` is what an `int` of 32 bits holds when `x` is stored in it, in two's complement. An index,
a size or a counter that stays in range is held as it is (`wrap_of_range`, `wrap_natCast`).
-/

namespace OsLabs.CInt

def wrap (x : Int) : Int := x.bmod (2 ^ 32)

theorem wrap_of_range {x : Int} (h : -2 ^ 31 ≤ x) (h' : x < 2 ^ 31) : wrap x = x :=
  Int.bmod_eq_of_le (by omega) (by omega)

theorem wrap_natCast {n : Nat} (h : n < 2 ^ 31) : wrap n = n := wrap_of_range (by omega) (by omega)

theorem wrap_lt (x : Int) : wrap x < 2 ^ 31 := Int.bmod_lt (by decide)

end OsLabs.CInt
