/-
# Scalars

Gates, states and Hamiltonians are written over any type of scalars that offers the operations
below: doubles to run them, exact real numbers to reason about them. No law is asked for, because
doubles satisfy few; a statement about exact arithmetic is one about an exact instance.

Key definition: `Scalar`. Instance: `Float`.
-/
import GateCircuit.Double.Hypotenuse

namespace GateCircuit

/-- The largest natural that a word of 32 bits holds. -/
def maxCount : Nat := 4294967295

/-- The largest natural that a word of 64 bits holds. -/
def maxWord : Nat := 18446744073709551615

/-- The arithmetic that circuits need. -/
class Scalar (R : Type) extends Zero R, One R, Add R, Sub R, Mul R, Div R, Neg R, BEq R where
  /-- a natural as a scalar -/
  ofNat : Nat → R
  /-- half the circumference of the unit circle -/
  pi : R
  sqrt : R → R
  sin : R → R
  cos : R → R
  abs : R → R
  /-- the length of the vector with the given parts -/
  hypotenuse : R → R → R
  less : R → R → Bool
  atMost : R → R → Bool
  /-- whether the scalar is no number; exact scalars always are one -/
  isNaN : R → Bool
  /-- the least integer that is at least the scalar -/
  ceil : R → R
  /-- the integral part as a natural, clamped to `0` and `maxCount` -/
  toCount : R → Nat
  /-- magnitudes up to this one, `10 ^ -12`, count as rounding noise -/
  tolerance : R

namespace Scalar

variable {R : Type} [Scalar R]

/-- Half of a scalar. -/
def half (x : R) : R := x / ofNat 2

/-- A quarter of `pi`. -/
def quarterPi : R := pi / ofNat 4

/-- The cosine of a quarter of `pi`, `1 / sqrt 2`. -/
def sqrtHalf : R := sqrt (half 1)

end Scalar

instance : Scalar Float where
  zero := 0.0
  one := 1.0
  add := (· + ·)
  sub := (· - ·)
  mul := (· * ·)
  div := (· / ·)
  neg := (- ·)
  beq := (· == ·)
  ofNat := Float.ofNat
  pi := 3.14159265358979323846264338327950288
  sqrt := Float.sqrt
  sin := Float.sin
  cos := Float.cos
  abs := Float.abs
  hypotenuse := Double.hypotenuse
  less x y := x < y
  atMost x y := x ≤ y
  isNaN := Float.isNaN
  ceil := Float.ceil
  toCount x := x.toUInt32.toNat
  tolerance := 1e-12

end GateCircuit
