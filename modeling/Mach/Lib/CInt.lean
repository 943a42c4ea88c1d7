/-!
# The type `int`

An `int` of a program is an `Int` here, and what is computed with it is taken modulo `2 ^ 32`
into the range of the type. A count that stays away from the ends of the range is what it is
among the integers.
-/

namespace Mach.Lib

/-- The value of an `int` after a computation. -/
def int (x : Int) : Int := x.bmod 4294967296

/-- `INT_MAX`. -/
def intMax : Int := 2147483647

variable {x : Int}

theorem int_eq (hlow : 0 ≤ x) (hhigh : x ≤ intMax) : int x = x := by
  unfold intMax at hhigh
  exact Int.bmod_eq_of_le (by omega) (by omega)

theorem int_le (x : Int) : int x ≤ intMax := by
  have : int x < ((4294967296 : Nat) + 1) / 2 := Int.bmod_lt (by decide)
  unfold intMax
  omega

end Mach.Lib
